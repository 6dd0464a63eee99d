import CommandText.Proofs.GivenUp
import Mathlib.Data.List.Chain

/-!
# A comment behind a line

Two texts that differ in a comment at the end of one line are read side by side. Until that line
ends both readings stand at the same token, or one at the comment and the other at the line end;
behind the line they are together again. A comment or a line end is called for nowhere within a
line, so this holds however much is missed on the way.
-/

namespace CommandText

open List Token

variable {ts : List Token} {t : Token}

/-! ### The two texts -/

/-- A token may stand in front of another one: comments and notes end a line. -/
def Token.Precedes (t u : Token) : Prop :=
  u.kind = .newline ∨ t.kind ≠ .comment ∧ t.kind ≠ .note

/-- Tokens that end within a line, with line ends behind their comments and notes. -/
structure EndsInCode (ts : List Token) : Prop where
  chain : ts.IsChain Precedes
  last : ∀ t ∈ ts.getLast?, t.kind ≠ .newline ∧ t.kind ≠ .comment ∧ t.kind ≠ .note

theorem EndsInCode.tail (h : EndsInCode (t :: ts)) : EndsInCode ts := by
  refine ⟨h.chain.tail, fun u hu => h.last u ?_⟩
  rw [getLast?_cons, hu]
  rfl

theorem EndsInCode.ne_nil (h : EndsInCode (t :: ts)) (ht : t.kind = .newline) : ts ≠ [] := by
  rintro rfl
  exact (h.last t rfl).1 ht

theorem EndsInCode.exists_newline (h : EndsInCode (t :: ts))
    (ht : t.kind = .comment ∨ t.kind = .note) : ∃ n rest, ts = n :: rest ∧ n.kind = .newline := by
  cases ts with
  | nil => exact absurd ht (not_or.mpr (h.last t rfl).2)
  | cons n rest =>
    exact ⟨n, rest, rfl, (h.chain.rel_head? rfl).resolve_right fun hcode => not_or.mpr hcode ht⟩

/-- The end of a line with a comment, and what follows. -/
structure Ending where
  comment : Token
  newline : Token
  below : List Token
  kind_comment : comment.kind = .comment
  kind_newline : newline.kind = .newline

namespace Ending

variable (o : Ending)

/-- The end of the line without the comment. -/
def bare : List Token := o.newline :: o.below

/-- The end of the line with the comment. -/
def commented : List Token := o.comment :: o.newline :: o.below

theorem isPunct_comment (p : Punct) : o.comment.isPunct p = false :=
  isPunct_eq_false (by simp [o.kind_comment]) p

theorem isPunct_newline (p : Punct) : o.newline.isPunct p = false :=
  isPunct_eq_false (by simp [o.kind_newline]) p

theorem isKind_comment (k : TokenKind) : o.comment.isKind k = (TokenKind.comment == k) := by
  rw [Token.isKind, o.kind_comment]

theorem isKind_newline (k : TokenKind) : o.newline.isKind k = (TokenKind.newline == k) := by
  rw [Token.isKind, o.kind_newline]

/-- What is called for within a line. -/
def Foreign (expected : List Expected) : Prop :=
  expected.any (·.fits o.comment) = false ∧ expected.any (·.fits o.newline) = false

theorem foreign_punct (p : Punct) : o.Foreign [.punct p] := by
  simp [Foreign, Expected.fits, o.isPunct_comment, o.isPunct_newline]

theorem foreign_valueKinds : o.Foreign ReadM.valueKinds := by
  rw [Foreign, ReadM.any_fits_valueKinds, ReadM.any_fits_valueKinds, Token.isValue, Token.isValue,
    o.kind_comment, o.kind_newline]
  decide

end Ending

/-- The tokens left in the two texts: the same, or so many and perhaps more in front of the
comment. -/
def Ending.Apart (o : Ending) (least : Nat) (xs ys : List Token) : Prop :=
  xs = ys ∨ ∃ front, EndsInCode front ∧ least ≤ front.length ∧
    xs = front ++ o.bare ∧ ys = front ++ o.commented

theorem Ending.Apart.mono {o : Ending} {least least' : Nat} {xs ys : List Token}
    (h : o.Apart least xs ys) (hle : least' ≤ least) : o.Apart least' xs ys := by
  refine h.imp_right ?_
  rintro ⟨front, hends, hleast, hrest⟩
  exact ⟨front, hends, Nat.le_trans hle hleast, hrest⟩

namespace Reading

variable {o : Ending} {least : Nat} {r r' : Reading}
variable {expected : List Expected} {least' : Nat} {p : Token → Bool}

/-- States of the two readings. Once they are given up, the tokens do not count. -/
structure Beside (o : Ending) (least : Nat) (r r' : Reading) : Prop where
  failures : r'.failures = r.failures
  halted : r'.halted = r.halted
  rest : r.halted = false → o.Apart least r.rest r'.rest

theorem Beside.mono (h : Beside o least r r') (hle : least' ≤ least) : Beside o least' r r' :=
  ⟨h.failures, h.halted, fun hr => (h.rest hr).mono hle⟩

theorem Beside.of_halted (h : Beside o least r r') (hr : r.halted = true) (least' : Nat) :
    Beside o least' r r' :=
  ⟨h.failures, h.halted, fun hr' => by simp [hr] at hr'⟩

theorem Beside.nextIs (h : Beside o least r r') (hp : 0 < least ∨ p o.comment = p o.newline) :
    r'.nextIs p = r.nextIs p := by
  cases hr : r.halted with
  | true => rw [nextIs_of_halted hr, nextIs_of_halted (h.halted.trans hr)]
  | false =>
    rw [Reading.nextIs, Reading.nextIs, next?_of_rest hr, next?_of_rest (h.halted.trans hr)]
    rcases h.rest hr with heq | ⟨front, -, hleast, hrest, hrest'⟩
    · rw [heq]
    · rw [hrest, hrest']
      cases front with
      | nil => exact hp.resolve_left (Nat.not_lt.mpr hleast)
      | cons t front => rfl

theorem Beside.of_next (h : Beside o 1 r r') (hnext : r.nextIs p = true)
    (hp : ∀ t front, p t = true → EndsInCode (t :: front) → least' ≤ front.length + 1) :
    Beside o least' r r' := by
  refine ⟨h.failures, h.halted, fun hr => (h.rest hr).imp_right ?_⟩
  rintro ⟨front, hends, hleast, hrest, hrest'⟩
  obtain ⟨t, front, rfl⟩ := exists_cons_of_length_pos hleast
  rw [Reading.nextIs, next?_of_rest hr, hrest] at hnext
  exact ⟨_, hends, hp t front hnext hends, hrest, hrest'⟩

theorem Beside.atNewline (h : Beside o 1 r r') (hnext : r.nextIs (·.isKind .newline) = true) :
    Beside o 2 r r' := by
  refine h.of_next hnext fun t front ht hends => Nat.succ_le_succ ?_
  exact length_pos_iff.mpr (hends.ne_nil (isKind_iff.mp ht))

theorem Beside.atAside (h : Beside o 1 r r') {kind : TokenKind}
    (hkind : kind = .comment ∨ kind = .note) (hnext : r.nextIs (·.isKind kind) = true) :
    Beside o 3 r r' := by
  refine h.of_next hnext fun t front ht hends => Nat.succ_le_succ ?_
  rw [← isKind_iff.mp ht] at hkind
  obtain ⟨n, front, rfl, hn⟩ := hends.exists_newline hkind
  exact Nat.succ_le_succ (length_pos_iff.mpr (hends.tail.ne_nil hn))

theorem Beside.cases_zero (h : Beside o 0 r r') :
    Beside o 1 r r' ∨ r.halted = false ∧ r.rest = o.bare ∧ r'.rest = o.commented := by
  cases hr : r.halted with
  | true => exact .inl (h.of_halted hr 1)
  | false =>
    rcases h.rest hr with heq | ⟨front, hends, -, hrest, hrest'⟩
    · exact .inl ⟨h.failures, h.halted, fun _ => .inl heq⟩
    · cases front with
      | nil => exact .inr ⟨rfl, hrest, hrest'⟩
      | cons t front =>
        exact .inl ⟨h.failures, h.halted, fun _ => .inr ⟨t :: front, hends, by simp, hrest, hrest'⟩⟩

theorem Beside.atToken (h : Beside o 0 r r') (hp : p o.newline = false)
    (hnext : r.nextIs p = true) : Beside o 1 r r' := by
  refine h.cases_zero.resolve_right ?_
  rintro ⟨hr, hrest, -⟩
  simp [Reading.nextIs, next?_of_rest hr, hrest, Ending.bare, hp] at hnext

/-! ### Taking tokens -/

theorem consume_of_halted (h : r.halted = true) : r.consume expected = (none, r) := by
  rw [consume, next?_of_halted h]
  simp only [h, if_true]

theorem consume_of_atEnd (expected : List Expected) (h : r.halted = false) (hrest : r.rest = []) :
    r.consume expected = (none, r.report (.unexpectedEnd expected) r.line) := by
  rw [consume, next?_of_rest h, hrest]
  simp [h]

/-- What becomes of the next token: it is passed over, or it is left alone once more. -/
structure Met (expected : List Expected) (t : Token) (x : List Token) (r s : Reading) : Prop where
  passed : expected.any (·.fits t) = true ∨ t.kind = .error →
    s.rest = x ∧ s.failures = 0 ∧ s.halted = false
  left : expected.any (·.fits t) = false → t.kind ≠ .error →
    s.rest = t :: x ∧ s.failures = r.failures + 1 ∧
      s.halted = !decide (r.failures < maxFailures)

theorem met_consume {t : Token} {x : List Token} (expected : List Expected) (hr : r.halted = false)
    (hrest : r.rest = t :: x) :
    (r.consume expected).1 = (if expected.any (·.fits t) then some t else none) ∧
      Met expected t x r (r.consume expected).2 := by
  have hc := consumed expected r
  generalize r.consume expected = c at hc ⊢
  cases hc with
  | givenUp h => simp [hr] at h
  | atEnd _ h => simp [hrest] at h
  | fits _ h hfits =>
    obtain ⟨rfl, rfl⟩ := List.cons.inj (hrest.symm.trans h)
    exact ⟨by rw [if_pos hfits], fun _ => ⟨rfl, rfl, hr⟩, fun h => by simp [hfits] at h⟩
  | bad _ h hfits hkind =>
    obtain ⟨rfl, rfl⟩ := List.cons.inj (hrest.symm.trans h)
    exact ⟨by simp [hfits], fun _ => ⟨rfl, rfl, hr⟩, fun _ h => absurd hkind h⟩
  | missed _ h hfits hkind =>
    obtain ⟨rfl, rfl⟩ := List.cons.inj (hrest.symm.trans h)
    refine ⟨by simp [hfits], fun h => ?_, fun _ _ => ⟨by rw [rest_fail]; exact hrest, ?_, ?_⟩⟩
    · rcases h with h | h
      · simp [hfits] at h
      · exact absurd h hkind
    · rw [fail]
      split <;> rfl
    · rw [fail]
      split
      · next hlt =>
        rw [decide_eq_true (show r.failures < maxFailures from hlt)]
        exact hr
      · next hlt => rw [decide_eq_false (show ¬r.failures < maxFailures from hlt), Bool.not_false]

theorem Beside.met {t t' : Token} {x y : List Token} {s s' : Reading} (h : Beside o least r r')
    (hs : Met expected t x r s) (hs' : Met expected t' y r' s')
    (hfits : expected.any (·.fits t') = expected.any (·.fits t))
    (herror : t'.kind = .error ↔ t.kind = .error)
    (hpassed : expected.any (·.fits t) = true ∨ t.kind = .error → o.Apart least' x y)
    (hleft : o.Apart least' (t :: x) (t' :: y)) : Beside o least' s s' := by
  by_cases hpass : expected.any (·.fits t) = true ∨ t.kind = .error
  · obtain ⟨hrest, hfailures, hhalted⟩ := hs.passed hpass
    obtain ⟨hrest', hfailures', hhalted'⟩ := hs'.passed (by rwa [hfits, herror])
    refine ⟨hfailures'.trans hfailures.symm, hhalted'.trans hhalted.symm, fun _ => ?_⟩
    rw [hrest, hrest']
    exact hpassed hpass
  · rw [not_or, Bool.not_eq_true] at hpass
    obtain ⟨hrest, hfailures, hhalted⟩ := hs.left hpass.1 hpass.2
    obtain ⟨hrest', hfailures', hhalted'⟩ :=
      hs'.left (hfits.trans hpass.1) (herror.not.mpr hpass.2)
    refine ⟨by rw [hfailures, hfailures', h.failures], by rw [hhalted, hhalted', h.failures],
      fun _ => ?_⟩
    rw [hrest, hrest']
    exact hleft

theorem Beside.consume (h : Beside o least r r') (hexpected : 0 < least ∨ o.Foreign expected) :
    (r.consume expected).1 = (r'.consume expected).1 ∧
      Beside o (least - 1) (r.consume expected).2 (r'.consume expected).2 := by
  cases hr : r.halted with
  | true =>
    rw [consume_of_halted hr, consume_of_halted (h.halted.trans hr)]
    exact ⟨rfl, h.of_halted hr _⟩
  | false =>
    have hr' := h.halted.trans hr
    rcases h.rest hr with heq | ⟨front, hends, hleast, hrest, hrest'⟩
    · cases hrest : r.rest with
      | nil =>
        rw [consume_of_atEnd expected hr hrest,
          consume_of_atEnd expected hr' (heq.symm.trans hrest)]
        exact ⟨rfl, h.failures, h.halted, fun _ => .inl heq⟩
      | cons t x =>
        obtain ⟨hanswer, hmet⟩ := met_consume expected hr hrest
        obtain ⟨hanswer', hmet'⟩ := met_consume expected hr' (heq.symm.trans hrest)
        exact ⟨hanswer.trans hanswer'.symm,
          h.met hmet hmet' rfl Iff.rfl (fun _ => .inl rfl) (.inl rfl)⟩
    · cases front with
      | nil =>
        obtain ⟨hcomment, hnewline⟩ := hexpected.resolve_left (Nat.not_lt.mpr hleast)
        obtain ⟨hanswer, hmet⟩ := met_consume expected hr hrest
        obtain ⟨hanswer', hmet'⟩ := met_consume expected hr' hrest'
        refine ⟨by simp [hanswer, hanswer', hcomment, hnewline],
          h.met hmet hmet' (hcomment.trans hnewline.symm) ?_ ?_ ?_⟩
        · simp [o.kind_comment, o.kind_newline]
        · simp [hnewline, o.kind_newline]
        · exact .inr ⟨[], hends, Nat.le_trans (Nat.sub_le _ _) hleast, rfl, rfl⟩
      | cons t front =>
        obtain ⟨hanswer, hmet⟩ := met_consume expected hr hrest
        obtain ⟨hanswer', hmet'⟩ := met_consume expected hr' hrest'
        exact ⟨hanswer.trans hanswer'.symm, h.met hmet hmet' rfl Iff.rfl
          (fun _ => .inr ⟨front, hends.tail, Nat.sub_le_of_le_add hleast, rfl, rfl⟩)
          (.inr ⟨t :: front, hends, Nat.le_trans (Nat.sub_le _ _) hleast, rfl, rfl⟩)⟩

theorem Beside.next? (h : Beside o least r r') (hleast : 0 < least) : r.next? = r'.next? := by
  cases hr : r.halted with
  | true => rw [next?_of_halted hr, next?_of_halted (h.halted.trans hr)]
  | false =>
    rw [next?_of_rest hr, next?_of_rest (h.halted.trans hr)]
    rcases h.rest hr with heq | ⟨front, -, hfront, hrest, hrest'⟩
    · rw [heq]
    · obtain ⟨t, front, rfl⟩ := exists_cons_of_length_pos (Nat.lt_of_lt_of_le hleast hfront)
      rw [hrest, hrest']
      rfl

theorem Beside.advance (h : Beside o least r r') (hleast : 0 < least) :
    Beside o (least - 1) r.advance r'.advance := by
  cases hr : r.halted with
  | true =>
    rw [Reading.advance, Reading.advance, next?_of_halted hr, next?_of_halted (h.halted.trans hr)]
    exact h.of_halted hr _
  | false =>
    have hr' := h.halted.trans hr
    rcases h.rest hr with heq | ⟨front, hends, hfront, hrest, hrest'⟩
    · cases hrest : r.rest with
      | nil =>
        rw [Reading.advance, Reading.advance, next?_of_rest hr, next?_of_rest hr', ← heq, hrest]
        exact ⟨h.failures, h.halted, fun _ => .inl heq⟩
      | cons t x =>
        rw [advance_of_rest hr hrest, advance_of_rest hr' (heq.symm.trans hrest)]
        exact ⟨h.failures, h.halted, fun _ => .inl rfl⟩
    · obtain ⟨t, front, rfl⟩ := exists_cons_of_length_pos (Nat.lt_of_lt_of_le hleast hfront)
      rw [advance_of_rest hr hrest, advance_of_rest hr' hrest']
      exact ⟨h.failures, h.halted, fun _ => .inr
        ⟨front, hends.tail, Nat.sub_le_of_le_add hfront, rfl, rfl⟩⟩

/-! ### Passing over a line -/

/-- What stands behind the first line end. -/
def behindLine (ts : List Token) : List Token := (ts.dropWhile fun t => !t.isKind .newline).tail

@[simp] theorem failures_skipLine (r : Reading) : r.skipLine.failures = r.failures := by
  obtain ⟨_, _, h⟩ := r.exists_skipLine
  rw [h]

@[simp] theorem halted_skipLine (r : Reading) : r.skipLine.halted = r.halted := by
  obtain ⟨_, _, h⟩ := r.exists_skipLine
  rw [h]

theorem rest_skipLine_eq (h : r.halted = false) : r.skipLine.rest = behindLine r.rest := by
  rw [skipLine, h, if_neg Bool.false_ne_true, behindLine]
  simp only
  cases r.rest.dropWhile fun t => !t.isKind .newline <;> rfl

theorem apart_behindLine {xs ys : List Token} (h : o.Apart 0 xs ys) :
    o.Apart 1 (behindLine xs) (behindLine ys) := by
  rcases h with rfl | ⟨front, hends, -, rfl, rfl⟩
  · exact .inl rfl
  · induction front with
    | nil => simp [behindLine, Ending.bare, Ending.commented, o.isKind_comment, o.isKind_newline,
        Ending.Apart]
    | cons t front ih =>
      cases ht : t.isKind .newline with
      | true =>
        have hne := hends.ne_nil (isKind_iff.mp ht)
        have hbehind (ts : List Token) : behindLine (t :: ts) = ts := by simp [behindLine, ht]
        rw [cons_append, cons_append, hbehind, hbehind]
        exact .inr ⟨front, hends.tail, length_pos_iff.mpr hne, rfl, rfl⟩
      | false =>
        have hbehind (ts : List Token) : behindLine (t :: ts) = behindLine ts := by
          simp [behindLine, ht]
        rw [cons_append, cons_append, hbehind, hbehind]
        exact ih hends.tail

theorem Beside.skipLine (h : Beside o least r r') : Beside o 1 r.skipLine r'.skipLine := by
  cases hr : r.halted with
  | true =>
    rw [Reading.skipLine, Reading.skipLine, if_pos hr, if_pos (h.halted.trans hr)]
    exact h.of_halted hr _
  | false =>
    have hr' := h.halted.trans hr
    refine ⟨?_, ?_, fun _ => ?_⟩
    · rw [failures_skipLine, failures_skipLine, h.failures]
    · rw [halted_skipLine, halted_skipLine, h.halted]
    · rw [rest_skipLine_eq hr, rest_skipLine_eq hr']
      exact apart_behindLine ((h.rest hr).mono (Nat.zero_le _))

theorem Beside.resync (h : Beside o least r r') : Beside o 1 r.resync r'.resync := by
  have hnext : r'.nextIs (fun t => t.isPunct .closeBrace || t.isPunct .closeBracket) =
      r.nextIs (fun t => t.isPunct .closeBrace || t.isPunct .closeBracket) :=
    h.nextIs (.inr (by simp [o.isPunct_comment, o.isPunct_newline]))
  rw [Reading.resync, Reading.resync, hnext]
  cases hclose : r.nextIs fun t => t.isPunct .closeBrace || t.isPunct .closeBracket with
  | false => exact h.skipLine
  | true =>
    -- at a closing bracket both stay where they are, in front of the comment
    exact (h.mono (Nat.zero_le _)).atToken (by simp [o.isPunct_newline]) hclose

end Reading

end CommandText
