import CommandText.Proofs.EnoughRounds

/-!
# Readings of two texts side by side

A text that is read without a miss, and the same text with a bad token somewhere in the arguments of
a command. Up to that command the two readings are the same step by step, since a reader looks at
one token at a time. If the readings have come together again behind the arguments, they go on in
the same way, apart from the problem that has been told.
-/

namespace CommandText

open Reading Token

variable {expected : List Expected} {rest : List Token} {t : Token} {start : Bool} {o : Spot}

/-- Whether a line begins behind some tokens, with labels in front of it perhaps, given whether one
begins in front of them. -/
def beginsBehind (start : Bool) : List Token → Bool
  | [] => start
  | t :: ts => beginsBehind (t.isKind .newline || start && t.isKind .label) ts

theorem beginsBehind_mono {start : Bool} {ts : List Token} (h : beginsBehind start ts = true) :
    beginsBehind true ts = true := by
  induction ts generalizing start with
  | nil => rfl
  | cons t ts ih =>
    rw [beginsBehind] at h ⊢
    cases hnext : t.isKind .newline || true && t.isKind .label with
    | true => exact ih h
    | false =>
      have hstart : (t.isKind .newline || start && t.isKind .label) = false := by
        cases start <;> simp_all
      rwa [hstart] at h

/-- A place in the arguments of a command, and the bad token that is put there: before the block,
the comment or the line end behind the arguments, and not right behind a label. -/
structure Spot where
  word : Token
  /-- What stands between the command word and the bad token. -/
  inside : List Token
  behind : List Token
  bad : Token
  isWord : word.isKind .identifier = true
  isBad : bad.kind = .error
  inLine : ∀ t ∈ inside,
    t.isPunct .openBrace = false ∧ t.isKind .comment = false ∧ t.isKind .newline = false
  notLabeled : ∀ t ∈ inside.getLast?, t.isKind .label = false

namespace Spot

/-- The text from the command word on. -/
def kept (o : Spot) : List Token := o.word :: (o.inside ++ o.behind)

/-- The text from the command word on, with the bad token. -/
def spoiled (o : Spot) : List Token := o.word :: (o.inside ++ o.bad :: o.behind)

/-- What is told about the bad token. -/
def problem (o : Spot) : Problem := ⟨.badToken o.bad.text, o.bad.line, none⟩

end Spot

/-- Tokens that a reader may pass while the command word is still to come: in front of a line no
identifier, and within a line no line end. -/
def passable : (start : Bool) → Token → Bool
  | true, t => !t.isKind .identifier
  | false, t => !t.isKind .newline

namespace Reading

variable {r r' : Reading}

/-- The bad token has been told and nothing else. -/
structure After (o : Spot) (rest : List Token) (r : Reading) : Prop where
  rest : r.rest = rest
  halted : r.halted = false
  problems : r.problems = [o.problem]

/-- States of the two readings: in front of the command word, or behind the bad token. The first
one is quiet. -/
inductive Twin (o : Spot) (start : Bool) : Reading → Reading → Prop
  | before (pre : List Token) (line : Nat) (h : beginsBehind start pre = true) :
      Twin o start (quiet (pre ++ o.kept) line) (quiet (pre ++ o.spoiled) line)
  | after {rest : List Token} {r : Reading} (line : Nat) (h : After o rest r) :
      Twin o start (quiet rest line) r

theorem After.log_ne_nil (h : After o rest r) : r.log ≠ [] := by
  intro hlog
  have hproblems := h.problems
  rw [Reading.problems, hlog] at hproblems
  cases hproblems

theorem Twin.after_of_log {line : Nat} (h : Twin o start (quiet rest line) r')
    (hlog : r'.log ≠ []) : After o rest r' := by
  generalize hr : quiet rest line = r at h
  cases h with
  | before => exact absurd rfl hlog
  | after line h =>
    obtain ⟨rfl, -⟩ := quiet_inj.mp hr
    exact h

section

variable (h : Twin o start r r')
include h

theorem Twin.mono : Twin o true r r' := by
  cases h with
  | before pre line h => exact .before pre line (beginsBehind_mono h)
  | after line h => exact .after line h

theorem Twin.exists_quiet : ∃ rest line, r = quiet rest line := by
  cases h with
  | before => exact ⟨_, _, rfl⟩
  | after => exact ⟨_, _, rfl⟩

theorem Twin.not_halted : r.halted = false ∧ r'.halted = false := by
  cases h with
  | before => exact ⟨rfl, rfl⟩
  | after _ h => exact ⟨rfl, h.halted⟩

theorem Twin.next? : r'.next? = r.next? := by
  cases h with
  | before pre line _ => cases pre <;> rfl
  | after _ h => rw [next?_of_rest h.halted, h.rest, next?_quiet]

theorem Twin.nextIs (p : Token → Bool) : r'.nextIs p = r.nextIs p := by
  rw [Reading.nextIs, h.next?, Reading.nextIs]

theorem Twin.advance (hnext : r.next? = some t) (ht : passable start t = true) :
    Twin o start r.advance r'.advance := by
  cases h with
  | before pre line h =>
    cases pre with
    | nil =>
      -- the next token is the command word itself
      obtain rfl : o.word = t := Option.some.inj hnext
      obtain rfl : start = true := h
      simp [passable, o.isWord] at ht
    | cons u pre =>
      obtain rfl : u = t := Option.some.inj hnext
      rw [List.cons_append, List.cons_append, advance_quiet_cons, advance_quiet_cons]
      refine .before pre u.line ?_
      rw [beginsBehind] at h
      cases start with
      | true => exact beginsBehind_mono h
      | false =>
        have hline : u.isKind .newline = false := by simpa [passable] using ht
        simpa [hline] using h
  | after line h =>
    obtain ⟨rest, rfl⟩ := List.head?_eq_some_iff.mp hnext
    rw [advance_of_rest h.halted h.rest, advance_quiet_cons]
    exact .after t.line ⟨rfl, h.halted, h.problems⟩

theorem Twin.settle :
    Twin o start { r with told := false, failures := 0 }
      { r' with told := false, failures := 0 } := by
  cases h with
  | before pre line h => exact .before pre line h
  | after line h => exact .after line ⟨h.rest, h.halted, h.problems⟩

end

theorem consume_of_next? (hnext : r.next? = some t) (hfits : expected.any (·.fits t) = true) :
    r.consume expected = (some t, { r.advance with told := false, failures := 0 }) := by
  rw [consume, hnext]
  simp only [hfits, if_true]

theorem Twin.consume (h : Twin o start r r')
    (hpass : ∀ t, expected.any (·.fits t) = true → passable start t = true)
    (hlog : (r.consume expected).2.log = []) :
    ∃ t, (r.consume expected).1 = some t ∧ (r'.consume expected).1 = some t ∧
      Twin o start (r.consume expected).2 (r'.consume expected).2 := by
  rcases consume_cases expected r with ⟨t, hnext, hfits, -⟩ | ⟨hhalted, -⟩ |
    ⟨-, -, fault, line, told, hmiss, -⟩
  · rw [consume_of_next? hnext hfits, consume_of_next? (h.next?.trans hnext) hfits]
    exact ⟨t, rfl, rfl, (h.advance hnext (hpass t hfits)).settle⟩
  · simp [h.not_halted.1] at hhalted
  · simp [hlog] at hmiss

end Reading

namespace ReadM

variable {α β : Type}

/-- A reader that takes twins to twins and gives the same answer for both, as long as nothing is
missed. Instances are found along its text. -/
class Along (o : Spot) (start : Bool) (m : ReadM α) : Prop where
  twin : ∀ {r r' : Reading}, Twin o start r r' → (m r).2.log = [] →
    (m r').1 = (m r).1 ∧ Twin o start (m r).2 (m r').2

instance Along.pure (a : α) : Along o start (pure a : ReadM α) := ⟨fun h _ => ⟨rfl, h⟩⟩

instance Along.bind {m : ReadM α} {f : α → ReadM β} [hm : Along o start m]
    [hmoves : ∀ a, Moves (f a)] [hf : ∀ a, Along o start (f a)] : Along o start (m >>= f) := by
  refine ⟨fun {r r'} h hlog => ?_⟩
  rw [bind_apply] at hlog
  obtain ⟨hanswer, htwin⟩ := hm.twin h (((hmoves _).reaches _).log_eq_nil hlog)
  rw [bind_apply, bind_apply, hanswer]
  exact (hf _).twin htwin hlog

instance Along.ite {c : Prop} [Decidable c] {m n : ReadM α} [hm : Along o start m]
    [hn : Along o start n] : Along o start (if c then m else n) := by
  split
  · exact hm
  · exact hn

instance Along.nextIs (p : Token → Bool) : Along o start (nextIs p) := ⟨fun h _ => ⟨h.nextIs p, h⟩⟩

theorem Along.after (start : Bool) {m : ReadM α} [hm : Along o start m] [hmoves : Moves m]
    {input : List Token} {line line' : Nat} {a : α} {r : Reading} (h : After o input r)
    (hquiet : m (quiet input line) = (a, quiet rest line')) :
    ∃ r', m r = (a, r') ∧ After o rest r' := by
  obtain ⟨hanswer, htwin⟩ := hm.twin (.after line h) (congrArg (·.2.log) hquiet)
  rw [hquiet] at hanswer htwin
  refine ⟨(m r).2, Prod.ext hanswer rfl, htwin.after_of_log fun hlog => h.log_ne_nil ?_⟩
  exact (hmoves.reaches r).log_eq_nil hlog

theorem Along.consume_bind {f : Option Token → ReadM α}
    (hpass : ∀ t, expected.any (·.fits t) = true → passable start t = true)
    [hmoves : ∀ a, Moves (f a)] (hf : ∀ t, Along o start (f (some t))) :
    Along o start (ReadM.consume expected >>= f) := by
  refine ⟨fun {r r'} h hlog => ?_⟩
  obtain ⟨t, ht, ht', htwin⟩ := h.consume hpass (((hmoves _).reaches _).log_eq_nil hlog)
  change (f (r'.consume expected).1 _).1 = (f (r.consume expected).1 _).1 ∧
    Twin o start (f (r.consume expected).1 _).2 (f (r'.consume expected).1 _).2
  rw [ht, ht']
  refine (hf t).twin htwin ?_
  rw [← ht]
  exact hlog

theorem Along.ifTake {p : Token → Bool} {f : Option Token → ReadM α} {n : ReadM α}
    (hpass : ∀ t, p t = true → passable start t = true)
    (hf : ∀ t, Along o start (f (some t))) (hn : Along o start n) :
    Along o start (do if ← ReadM.nextIs p then take >>= f else n) := by
  refine ⟨fun {r r'} h hlog => ?_⟩
  rw [nextIs_bind_apply] at hlog ⊢
  rw [nextIs_bind_apply, h.nextIs p]
  cases hnext : r.nextIs p with
  | true =>
    rw [hnext] at hlog
    obtain ⟨t, ht, hp⟩ := exists_next?_of_nextIs hnext
    have htake : take r = (some t, r.advance) := Prod.ext ht rfl
    have htake' : take r' = (some t, r'.advance) := Prod.ext (h.next?.trans ht) rfl
    rw [if_pos rfl, bind_apply, htake] at hlog
    rw [if_pos rfl, bind_apply, bind_apply, htake, htake']
    exact (hf t).twin (h.advance ht (hpass t hp)) hlog
  | false =>
    rw [hnext] at hlog
    exact hn.twin h hlog

theorem Along.of_rounds {m : ReadM α} (rounds : Nat → ReadM α)
    (hrounds : ∀ n, Along o start (rounds n))
    (h : ∀ (r : Reading) n, r.rest.length + 1 < n → rounds n r = m r) : Along o start m := by
  refine ⟨fun {r r'} htwin hlog => ?_⟩
  have hr := h r (r.rest.length + r'.rest.length + 2) (by omega)
  have hr' := h r' (r.rest.length + r'.rest.length + 2) (by omega)
  rw [← hr] at hlog ⊢
  rw [← hr']
  exact (hrounds _).twin htwin hlog

theorem passable_of_isPunct {p : Punct} (h : t.isPunct p = true) (start : Bool) :
    passable start t = true := by
  have hkind := kind_of_isPunct h
  cases start <;> simp [passable, isKind_eq_false_iff, hkind]

theorem passable_of_isKind (kind : TokenKind) (hkind : kind ≠ .identifier)
    (h : t.isKind kind = true) : passable true t = true := by
  rw [isKind_iff] at h
  simp [passable, isKind_eq_false_iff, h, hkind]

theorem Along.discard_consume
    (hpass : ∀ t, expected.any (·.fits t) = true → passable start t = true) :
    Along o start (discard (ReadM.consume expected)) := by
  refine ⟨fun h hlog => ?_⟩
  obtain ⟨t, -, -, htwin⟩ := h.consume hpass hlog
  exact ⟨rfl, htwin⟩

instance Along.punct (p : Punct) : Along o start (discard (ReadM.consume [.punct p])) :=
  .discard_consume fun _ ht =>
    passable_of_isPunct (p := p) (by simpa [Expected.fits] using ht) start

/-! ### Lines -/

theorem passable_of_newline (t : Token) (h : [Expected.kind .newline].any (·.fits t) = true) :
    passable true t = true :=
  passable_of_isKind .newline (by decide) (by simpa [Expected.fits] using h)

instance Along.newline : Along o true (discard (ReadM.consume [.kind .newline])) :=
  .discard_consume passable_of_newline

instance Along.lineEnd : Along o true lineEnd := by
  refine .consume_bind passable_of_newline fun t => ?_
  rw [Option.isNone_some, if_neg Bool.false_ne_true]
  exact .pure ()

instance Along.endComment : Along o true endComment :=
  .ifTake (fun _ ht => passable_of_isKind .comment (by decide) ht) (fun _ => .pure _) (.pure _)

theorem Along.lineBlock {kind : TokenKind} (hkind : kind ≠ .identifier) :
    Along o true (lineBlock kind) := by
  have hrounds (n : Nat) : Moves ((linesRound kind)^[n] (Pure.pure [])) ∧
      Along o true ((linesRound kind)^[n] (Pure.pure [])) := by
    induction n with
    | zero => exact ⟨.pure _, .pure _⟩
    | succ n ih =>
      obtain ⟨_, _⟩ := ih
      rw [Function.iterate_succ_apply', linesRound]
      refine ⟨inferInstance, .ifTake (fun _ => passable_of_isKind kind hkind) (fun _ => ?_) ?_⟩
      · infer_instance
      · exact .pure _
  exact .of_rounds _ (fun n => (hrounds n).2) fun r n hn => iterate_linesRound kind _ (by omega)

/-! ### Arguments -/

theorem passable_of_isValue (h : t.isValue = true) : passable false t = true := by
  rw [passable, Bool.not_eq_true', isKind_eq_false_iff]
  intro hkind
  rw [isValue_iff, hkind] at h
  exact absurd h (by decide)

instance Along.commaRounds {begins : Token → Bool} {one : ReadM (Option α)} [Moves one]
    [Along o start one] (n : Nat) (isFirst : Bool) :
    Along o start (commaRounds begins one n isFirst) := by
  induction n generalizing isFirst with
  | zero => exact .pure _
  | succ n ih =>
    rw [commaRounds_succ, commaRound]
    infer_instance

instance Along.value : Along o false (consume valueKinds) := by
  refine ⟨fun h hlog => ?_⟩
  obtain ⟨t, ht, ht', htwin⟩ :=
    h.consume (fun t ht => passable_of_isValue (any_fits_valueKinds t ▸ ht)) hlog
  exact ⟨ht'.trans ht.symm, htwin⟩

/-- The values of a list, as many as there are. -/
def valueList : ReadM (List Token) := do values ((← get).rest.length + 1) true

instance Moves.valueList : Moves valueList := by
  unfold ReadM.valueList
  infer_instance

instance Along.valueList : Along o false valueList :=
  .of_rounds (fun n => ReadM.commaRounds continuesList (ReadM.consume valueKinds) n true)
    (fun n => .commaRounds n true) fun _ _ hn => iterate_valuesRound _ hn

instance Along.argumentValue : Along o false argumentValue := by
  refine @Along.bind _ _ _ _ _ _ _ _ fun _ => ?_
  split
  · change Along o false (do
      discard (ReadM.consume [.punct .openBracket])
      let tokens ← ReadM.valueList
      discard (ReadM.consume [.punct .closeBracket])
      return some (ArgumentValue.list tokens))
    infer_instance
  · infer_instance

instance Along.argument : Along o false argument := by
  refine .ifTake (fun t ht => ?_) (fun t => ?_) ?_
  · rw [isKind_iff] at ht
    simp [passable, isKind_eq_false_iff, ht]
  · infer_instance
  · infer_instance

instance Along.arguments : Along o false arguments :=
  .of_rounds (fun n => ReadM.commaRounds startsArgument ReadM.argument n true)
    (fun n => .commaRounds n true) fun _ _ hn => iterate_argumentRound _ hn

end ReadM

end CommandText
