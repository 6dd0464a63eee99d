import CommandText.Proofs.BracketedCalls
import CommandText.Proofs.Grammar
import CommandText.Proofs.SpoiledArguments
import Mathlib.Data.List.DropRight

/-!
# Tokens put behind a well-formed text

A statement that is read without a miss ends with its line. What stands behind it does not count,
except behind comment lines, which belong to a command that follows them. So a text without a
problem, whose last line is no comment line, has no effect on what is put behind it, however
malformed that is: the reader comes to the seam in a quiet state, with a line number that the next
token replaces and with more rounds left than it needs.
-/

namespace CommandText

open List Entry

variable {tokens : List Token}

namespace Form

open ReadM

variable {b : Body} {comments : List Comment} {input rest ts : List Token} {kind : TokenKind}

/-! ### Other tokens behind a part -/

theorem startsWith_append {x : List Token} (hx : x ≠ []) (p : Token → Bool) (a b : List Token) :
    startsWith p (x ++ a) = startsWith p (x ++ b) := by
  obtain ⟨t, x, rfl⟩ := exists_cons_of_ne_nil hx
  rfl

theorem Lines.shift (h : Lines kind input ts rest) :
    ∃ x, input = x ++ rest ∧ ∀ rest', startsWith (·.isKind kind) rest' = false →
      Lines kind (x ++ rest') ts rest' := by
  induction h with
  | stop => exact ⟨[], rfl, fun _ => .stop⟩
  | @line t n _ _ _ ht hn _ ih =>
    obtain ⟨x, rfl, hx⟩ := ih
    exact ⟨t :: n :: x, rfl, fun rest' hrest => .line ht hn (hx rest' hrest)⟩

theorem Lines.suffix (h : Lines kind input ts rest) : rest <:+ input := by
  obtain ⟨x, rfl, -⟩ := h.shift
  exact ⟨x, rfl⟩

theorem LineEnd.shift (h : LineEnd input comments rest) :
    ∃ x n, n.isKind .newline = true ∧ input = x ++ n :: rest ∧
      ∀ rest', LineEnd (x ++ n :: rest') comments rest' := by
  cases h with
  | @bare n _ hn => exact ⟨[], n, hn, rfl, fun _ => .bare hn⟩
  | @comment t n _ ht hn => exact ⟨[t], n, hn, rfl, fun _ => .comment ht hn⟩

/-- Which tokens may stand behind a part instead of those that do. -/
def Part.Bears : Part → List Token → List Token → Prop
  | command _ _, _, _ => True
  | statement _, rest, rest' =>
    startsWith opensStatement rest' = true → startsWith opensStatement rest = true
  | members, _, rest' => startsWith (fun t => !t.isPunct .closeBrace) rest' = false
  | items stop, _, rest' => startsWith (fun t => !stop.any t.isPunct) rest' = false

theorem opensStatement_eq_false_of_stops (stop : Option Punct)
    (h : startsWith (fun t => !stop.any t.isPunct) rest = false) :
    startsWith opensStatement rest = false := by
  cases hopens : startsWith opensStatement rest with
  | false => rfl
  | true => rw [← h, startsWith_not_stop hopens]

theorem opensStatement_eq_false_iff :
    startsWith opensStatement input = false ↔ startsWith (·.isKind .comment) input = false ∧
      startsWith (·.isKind .note) input = false ∧
      startsWith (·.isKind .identifier) input = false := by
  cases input with
  | nil => simp
  | cons t rest => simp [opensStatement, and_assoc]

theorem ne_nil_of_reads {part : Part} {x : List Token} (h : Reads part (x ++ rest) b rest)
    (hpart : 1 ≤ part.least) : x ≠ [] := by
  rintro rfl
  have := h.length_le
  rw [nil_append] at this
  omega

theorem Break.shift (h : Break input comments rest) : ∃ x, input = x ++ rest ∧ ∀ rest',
      (∀ p, startsWith p rest' = startsWith p rest) → Break (x ++ rest') comments rest' := by
  cases h with
  | none h => exact ⟨[], rfl, fun rest' hhead => .none (hhead _ ▸ h)⟩
  | some h =>
    obtain ⟨x, n, -, rfl, hend⟩ := h.shift
    exact ⟨x ++ [n], by simp, fun rest' _ => by simpa using Break.some (hend rest')⟩

theorem bears_statement {y rest' : List Token} (isLoose : Bool)
    (hstops : startsWith opensStatement rest' = false) :
    (Part.statement isLoose).Bears (y ++ rest) (y ++ rest') := by
  intro hopens
  cases y with
  | nil => rw [nil_append, hstops] at hopens; cases hopens
  | cons t y => exact hopens

theorem Reads.lead_shift {above mid₁ notes z : List Token} (hc : Lines .comment input above mid₁)
    (hn : Lines .note mid₁ notes (z ++ rest)) (h : Reads (.command above notes) (z ++ rest) b rest)
    (hcommand : ∀ rest', Reads (.command above notes) (z ++ rest') b rest') :
    ∃ x, input = x ++ rest ∧ ∀ isLoose rest', Reads (.statement isLoose) (x ++ rest') b rest' := by
  obtain ⟨y, rfl, hnotes⟩ := hn.shift
  obtain ⟨x, rfl, habove⟩ := hc.shift
  have hz : z ≠ [] := ne_nil_of_reads h (Nat.le_refl _)
  refine ⟨x ++ y ++ z, by simp, fun isLoose rest' => ?_⟩
  have hn' := startsWith_append hz (·.isKind .note) rest' rest |>.trans hn.stops
  have hc' : startsWith (·.isKind .comment) (y ++ (z ++ rest')) = false := by
    rw [← append_assoc, startsWith_append (by simp [hz]) _ rest' rest, append_assoc]
    exact hc.stops
  simpa using Reads.lead (habove _ hc') (hnotes _ hn') (hcommand rest')

theorem Reads.shift {part : Part} (h : Reads part input b rest) :
    ∃ x, input = x ++ rest ∧ ∀ rest', part.Bears rest rest' → Reads part (x ++ rest') b rest' := by
  induction h with
  | @leaf above notes w input args mid footer rest hw ha he =>
    obtain ⟨y, n, hn, rfl, hend⟩ := he.shift
    obtain ⟨x, rfl, -, hargs, -⟩ := Arguments.move ha
    refine ⟨w :: x ++ y ++ [n], by simp, fun rest' _ => ?_⟩
    have hstop := Grammar.startsWith_startsArgument_lineEnd (hend rest')
    simpa using Reads.leaf hw (hargs _ hstop) (hend rest')
  | @branch above notes w input args o mid₁ header mid₂ body inner c mid₃ footer rest hw ha ho hh hm
      hc he ihm =>
    obtain ⟨z, n, hn, rfl, hend⟩ := he.shift
    obtain ⟨y, rfl, hbody⟩ := ihm
    obtain ⟨u, k, -, rfl, hhead⟩ := hh.shift
    obtain ⟨x, rfl, -, hargs, -⟩ := Arguments.move ha
    refine ⟨w :: x ++ o :: u ++ k :: y ++ c :: z ++ [n], by simp, fun rest' _ => ?_⟩
    have hstop := Grammar.startsWith_startsArgument_eq_false
      (u ++ k :: (y ++ c :: (z ++ n :: rest'))) (.inl ho)
    have hcloses : Part.members.Bears (c :: (z ++ n :: rest)) (c :: (z ++ n :: rest')) := by
      simp [Part.Bears, hc]
    simpa using Reads.branch hw (hargs _ hstop) ho (hhead _) (hbody _ hcloses) hc (hend rest')
  | lead hc hn h ih =>
    obtain ⟨z, rfl, hcommand⟩ := ih
    obtain ⟨x, rfl, hlead⟩ := Reads.lead_shift hc hn h fun rest' => hcommand rest' trivial
    exact ⟨x, rfl, fun rest' _ => hlead _ rest'⟩
  | @loose input above rest hc habove hn hi =>
    obtain ⟨x, rfl, hlines⟩ := hc.shift
    refine ⟨x, rfl, fun rest' hbears => ?_⟩
    have hopens : startsWith opensStatement rest = false :=
      opensStatement_eq_false_iff.mpr ⟨hc.stops, hn, hi⟩
    have hopens' : startsWith opensStatement rest' = false := by
      by_contra h
      rw [hbears (by simpa using h)] at hopens
      cases hopens
    obtain ⟨hc', hn', hi'⟩ := opensStatement_eq_false_iff.mp hopens'
    exact .loose (hlines rest' hc') habove hn' hi'
  | @noMember rest h => exact ⟨[], rfl, fun _ => .noMember⟩
  | @listMember l o input header mid₁ items c mid₂ footer mid₃ later comments rest hl ho hh hi hc hf
      h ihi ih =>
    obtain ⟨z, rfl, hlater⟩ := ih
    obtain ⟨v, n, -, rfl, hfoot⟩ := hf.shift
    obtain ⟨y, rfl, hitems⟩ := ihi
    obtain ⟨u, k, -, rfl, hhead⟩ := hh.shift
    refine ⟨l :: o :: u ++ k :: y ++ c :: v ++ n :: z, by simp, fun rest' hstops => ?_⟩
    have hcloses : (Part.items (some .closeBracket)).Bears (c :: (v ++ n :: (z ++ rest)))
        (c :: (v ++ n :: (z ++ rest'))) := by
      simp [Part.Bears, hc]
    simpa using Reads.listMember hl ho (hhead _) (hitems _ hcloses) hc (hfoot _)
      (hlater rest' hstops)
  | @roleMember l input header mid₁ child mid₂ later comments rest hl ho hb hs h ihs ih =>
    obtain ⟨z, rfl, hlater⟩ := ih
    obtain ⟨y, rfl, hchild⟩ := ihs
    have hy : y ≠ [] := ne_nil_of_reads hs (Nat.le_refl _)
    obtain ⟨u, rfl, hbreak⟩ := hb.shift
    refine ⟨l :: u ++ y ++ z, by simp, fun rest' hstops => ?_⟩
    have hseam := startsWith_append (x := u ++ y) (by simp [hy]) (·.isPunct .openBracket)
      (z ++ rest') (z ++ rest)
    have ho' : startsWith (·.isPunct .openBracket) (u ++ (y ++ (z ++ rest'))) = false := by
      rw [← append_assoc, hseam, append_assoc]
      exact ho
    have hb' := hbreak (y ++ (z ++ rest')) fun p => startsWith_append hy p _ _
    have hopens := opensStatement_eq_false_of_stops (some .closeBrace) hstops
    simpa using Reads.roleMember hl ho' hb' (hchild _ (bears_statement false hopens))
      (hlater rest' hstops)
  | member hs h ihs ih =>
    obtain ⟨y, rfl, hlater⟩ := ih
    obtain ⟨x, rfl, hfirst⟩ := ihs
    refine ⟨x ++ y, by simp, fun rest' hstops => ?_⟩
    have hopens := opensStatement_eq_false_of_stops (some .closeBrace) hstops
    simpa using Reads.member (hfirst _ (bears_statement true hopens)) (hlater rest' hstops)
  | noItem h => exact ⟨[], rfl, fun _ => .noItem⟩
  | @item stop _ _ _ _ _ hs h ihs ih =>
    obtain ⟨y, rfl, hlater⟩ := ih
    obtain ⟨x, rfl, hfirst⟩ := ihs
    refine ⟨x ++ y, by simp, fun rest' hstops => ?_⟩
    have hopens := opensStatement_eq_false_of_stops stop hstops
    simpa using Reads.item (hfirst _ (bears_statement true hopens)) (hlater rest' hstops)

/-! ### The last line -/

/-- Tokens up to the end of a line. -/
def EndsLine (tokens : List Token) : Prop := ∀ n ∈ tokens.getLast?, n.isKind .newline = true

theorem endsLine_append_newline (tokens : List Token) {n : Token} (hn : n.isKind .newline = true) :
    EndsLine (tokens ++ [n]) := by
  simpa [EndsLine] using hn

theorem EndsLine.append {xs ys : List Token} (hxs : EndsLine xs) (hys : EndsLine ys) :
    EndsLine (xs ++ ys) := by
  cases ys using List.reverseRecOn with
  | nil => simpa using hxs
  | append_singleton ys n =>
    rw [← append_assoc]
    exact endsLine_append_newline _ (hys n (by simp))

theorem LineEnd.endsLine {mid : List Token} (h : LineEnd mid comments rest) (hmid : mid <:+ input) :
    ∃ x, input = x ++ rest ∧ EndsLine x := by
  obtain ⟨x, rfl⟩ := hmid
  obtain ⟨y, n, hn, rfl, -⟩ := h.shift
  exact ⟨x ++ y ++ [n], by simp, endsLine_append_newline _ hn⟩

theorem Reads.endsLine {above notes whole : List Token}
    (h : Reads (.command above notes) input b rest) (hinput : input <:+ whole) :
    ∃ x, whole = x ++ rest ∧ EndsLine x := by
  cases h with
  | leaf _ ha he =>
    obtain ⟨x, rfl, -⟩ := Arguments.move ha
    exact he.endsLine (((suffix_append x _).trans (suffix_cons _ _)).trans hinput)
  | @branch _ _ w _ _ o _ _ _ _ _ c mid₃ _ _ _ ha _ hh hm _ he =>
    obtain ⟨x, rfl, -⟩ := Arguments.move ha
    obtain ⟨y, k, -, rfl, -⟩ := hh.shift
    obtain ⟨z, rfl, -⟩ := hm.shift
    have hmid : mid₃ <:+ w :: (x ++ o :: (y ++ k :: (z ++ c :: mid₃))) :=
      ⟨w :: x ++ o :: y ++ k :: z ++ [c], by simp⟩
    exact he.endsLine (hmid.trans hinput)

theorem Lines.last (h : Lines kind input ts rest) (hts : ts ≠ []) :
    ∃ x c n, input = x ++ c :: n :: rest ∧ c.isKind kind = true ∧ EndsLine x := by
  induction h with
  | stop => exact absurd rfl hts
  | @line t n input ts rest ht hn h ih =>
    cases h with
    | stop => exact ⟨[], t, n, rfl, ht, nofun⟩
    | line =>
      obtain ⟨x, c, n', hinput, hc, hx⟩ := ih (by simp)
      exact ⟨[t, n] ++ x, c, n', by simp [hinput], hc, (endsLine_append_newline [t] hn).append hx⟩

end Form

open Form ReadM Reading

/-- The last line of some tokens, without its line end. -/
def lastLine (tokens : List Token) : List Token :=
  tokens.dropLast.rtakeWhile fun t => !t.isKind .newline

theorem lastLine_comment {front : List Token} (hfront : EndsLine front) {c : Token}
    (hc : c.isKind .comment = true) (n : Token) : lastLine (front ++ [c, n]) = [c] := by
  have hdrop : (front ++ [c, n]).dropLast = front ++ [c] := by
    rw [dropLast_append_of_ne_nil (by simp)]
    rfl
  have hne : c.isKind .newline = false := by
    rw [Token.isKind_eq_false_iff, Token.isKind_iff.mp hc]
    decide
  rw [lastLine, hdrop, rtakeWhile_concat_pos _ _ _ (by simp [hne])]
  suffices h : front.rtakeWhile (fun t => !t.isKind .newline) = [] by rw [h, nil_append]
  rw [rtakeWhile_eq_nil_iff]
  intro hne
  simpa using hfront _ (getLast?_eq_getLast_of_ne_nil hne)

/-! ### A text without a problem -/

/-- Statements one after the other, each read in the same way whatever stands behind it. -/
inductive Series : List Token → List Entry → Prop
  | nil : Series [] []
  | cons {x y : List Token} {entries later : List Entry}
      (hx : ∀ rest, Reads (.statement true) (x ++ rest) (entries, []) rest) (hy : Series y later) :
      Series (x ++ y) (entries ++ later)

theorem Form.Reads.series {input : List Token} {entries : List Entry}
    (h : Reads (.items none) input (entries, []) []) {front : List Token} (hfront : EndsLine front)
    (hlast : (lastLine (front ++ input)).map Token.kind ≠ [.comment]) : Series input entries := by
  generalize hpart : Part.items none = part at h
  generalize hb : (entries, ([] : List Comment)) = b at h
  generalize hrest : ([] : List Token) = rest at h
  induction h generalizing front entries with
  | noItem =>
    cases hb
    subst hrest
    exact .nil
  | @item stop input first mid later rest hs h _ ih =>
    cases hb
    subst hrest
    cases hpart
    cases hs with
    | lead hc hn hcommand =>
      obtain ⟨z, rfl, hz⟩ := hcommand.shift
      obtain ⟨x, rfl, hlead⟩ := Reads.lead_shift hc hn hcommand fun rest => hz rest trivial
      obtain ⟨x', hx', hends⟩ := hcommand.endsLine (hn.suffix.trans hc.suffix)
      obtain rfl : x = x' := append_cancel_right hx'
      rw [← append_assoc] at hlast
      exact .cons (hlead true) (ih (hfront.append hends) hlast rfl rfl rfl)
    | loose hc habove hn hi =>
      have hopens := opensStatement_eq_false_iff.mpr ⟨hc.stops, hn, hi⟩
      cases h with
      | item hs' =>
        rw [hs'.starts_statement] at hopens
        cases hopens
      | noItem =>
        obtain ⟨x, c, n, rfl, hc', hx⟩ := hc.last habove
        rw [← append_assoc, lastLine_comment (hfront.append hx) hc'] at hlast
        exact absurd (congrArg (fun k => [k]) (Token.isKind_iff.mp hc')) hlast
  | _ => cases hpart

/-! ### The line before the first token -/

namespace ReadM

variable {α β : Type}

/-- The reader takes some tokens in the same way whatever the line of the last one read. -/
def Blind (m : ReadM α) (input : List Token) : Prop :=
  ∀ line line', m (quiet input line) = m (quiet input line')

theorem Blind.lineBlock_bind {kind : TokenKind} {f : List Token → ReadM β} {t : Token}
    {rest : List Token} (h : t.isKind kind = false → Blind (f []) (t :: rest)) :
    Blind (lineBlock kind >>= f) (t :: rest) := by
  intro line line'
  have hround (l : Nat) : lineBlock kind (quiet (t :: rest) l) =
      linesRound kind (wholeLines kind rest.length) (quiet (t :: rest) l) := rfl
  rw [bind_apply, bind_apply, hround, hround, linesRound, nextIs_bind_apply, nextIs_bind_apply,
    nextIs_quiet, nextIs_quiet, head?_cons, Option.any_some]
  cases hkind : t.isKind kind with
  | true => rfl
  | false => exact h hkind line line'

theorem skipLine_eq_of_rest {r : Reading} (hhalted : r.halted = false) (hrest : r.rest ≠ [])
    (line : Nat) : { r with line }.skipLine = r.skipLine := by
  simp only [skipLine, hhalted, Bool.false_eq_true, if_false]
  cases hdrop : r.rest.dropWhile fun t => !t.isKind .newline with
  | cons => rfl
  | nil =>
    have hline := takeWhile_append_dropWhile (p := fun t => !t.isKind .newline) (l := r.rest)
    rw [hdrop, append_nil] at hline
    simp only [hline]
    rw [getLast?_eq_getLast_of_ne_nil hrest]
    rfl

theorem Blind.looseLines {t : Token} (ht : t.isKind .identifier = false) (rest : List Token) :
    Blind (looseLines [] []) (t :: rest) := by
  intro line line'
  have hstep (l : Nat) : ReadM.looseLines [] [] (quiet (t :: rest) l) =
      ([], ((quiet (t :: rest) l).consume [.kind .identifier]).2.skipLine) := rfl
  have hfits : [Expected.kind .identifier].any (·.fits t) = false := by
    simpa [Expected.fits] using ht
  rw [hstep, hstep]
  simp only [Reading.consume, next?_quiet, head?_cons, hfits, Bool.false_eq_true, if_false]
  split
  · rfl
  · refine congrArg (Prod.mk []) ?_
    exact skipLine_eq_of_rest (r := ((quiet (t :: rest) line').report _ t.line).fail t.line) rfl
      (cons_ne_nil t rest) line

theorem Blind.statement (bound : Nat) (t : Token) (rest : List Token) :
    Blind (statement (bound + 1) true) (t :: rest) := by
  refine Blind.lineBlock_bind fun _ => Blind.lineBlock_bind fun _ line line' => ?_
  rw [unlessHalted_apply, unlessHalted_apply, halted_quiet, halted_quiet,
    if_neg Bool.false_ne_true, if_neg Bool.false_ne_true, nextIs_bind_apply, nextIs_bind_apply,
    nextIs_quiet, nextIs_quiet, head?_cons, Option.any_some]
  cases ht : t.isKind .identifier with
  | false => exact Blind.looseLines ht rest line line'
  | true =>
    have hfits : [Expected.kind .identifier].any (·.fits t) = true := by
      simpa [Expected.fits] using ht
    have hword (l : Nat) : consume [.kind .identifier] (quiet (t :: rest) l) =
        (some t, quiet rest t.line) := consume_quiet_of_fits hfits rest l
    change command (members bound) [] [] _ = command (members bound) [] [] _
    rw [command, bind_apply, bind_apply, hword, hword]

end ReadM

theorem items_quiet {bound : Nat} (hbound : 2 * tokens.length + 2 ≤ bound) (line : Nat) :
    (items none bound (quiet tokens line)).1 = (parse tokens).entries ∧
      (items none bound (quiet tokens line)).2.problems = (parse tokens).problems := by
  have hparse : parse tokens = ⟨(items none bound (quiet tokens 1)).1,
      (items none bound (quiet tokens 1)).2.problems⟩ := by
    rw [parse, ← readAll_eq hbound]
    rfl
  rw [hparse]
  obtain ⟨bound, rfl⟩ := Nat.exists_eq_add_of_le' (Nat.le_trans (Nat.le_add_left 2 _) hbound)
  cases tokens with
  | nil => exact ⟨rfl, rfl⟩
  | cons t rest =>
    have hitems (l : Nat) : items none (bound + 2) (quiet (t :: rest) l) =
        (do return (← statement (bound + 1) true) ++ (← items none (bound + 1)) : ReadM _)
          (quiet (t :: rest) l) := rfl
    rw [hitems, hitems, bind_apply, bind_apply, Blind.statement bound t rest line 1]
    exact ⟨rfl, rfl⟩

theorem Series.items {entries : List Entry} (h : Series tokens entries) (more : List Token)
    {bound : Nat} (hbound : 2 * (tokens ++ more).length + 2 ≤ bound) (line : Nat) :
    (items none bound (quiet (tokens ++ more) line)).1 = entries ++ (parse more).entries ∧
      (items none bound (quiet (tokens ++ more) line)).2.problems = (parse more).problems := by
  induction h generalizing bound line with
  | nil => exact items_quiet hbound line
  | @cons x y entries later hx hy ih =>
    have hne : x ≠ [] := ne_nil_of_reads (hx []) (Nat.le_refl _)
    obtain ⟨t, x, rfl⟩ := exists_cons_of_ne_nil hne
    obtain ⟨bound, rfl⟩ := Nat.exists_eq_add_of_le' (Nat.le_trans (Nat.le_add_left 1 _) hbound)
    have hmore : 2 * (y ++ more).length + 2 ≤ bound := by
      simp only [length_append, length_cons] at hbound ⊢
      omega
    rw [append_assoc] at hbound ⊢
    obtain ⟨line', hfirst⟩ := ((exact_recursive bound).1 true (t :: x ++ (y ++ more)) (by omega)
      line entries (y ++ more)).mpr (hx _)
    obtain ⟨hentries, hproblems⟩ := ih hmore line'
    have hitems : ReadM.items none (bound + 1) (quiet (t :: x ++ (y ++ more)) line) =
        (do return (← statement bound true) ++ (← ReadM.items none bound) : ReadM _)
          (quiet (t :: x ++ (y ++ more)) line) := rfl
    rw [hitems, bind_apply, hfirst]
    refine ⟨?_, hproblems⟩
    rw [append_assoc, ← hentries]
    rfl

theorem parse_append (hproblems : (parse tokens).problems = [])
    (hlast : (lastLine tokens).map Token.kind ≠ [.comment]) (more : List Token) :
    parse (tokens ++ more) =
      ⟨(parse tokens).entries ++ (parse more).entries, (parse more).problems⟩ := by
  have hreads := (parse_eq_iff tokens (parse tokens).entries).mp (congrArg (Parsed.mk _) hproblems)
  have hstart : EndsLine [] := nofun
  obtain ⟨hentries, hmore⟩ := (hreads.series hstart hlast).items more (Nat.le_refl _) 1
  rw [← hentries, ← hmore]
  rfl

/-! ### The calls of a visitor -/

variable {σ Scope α : Type}

/-- The answers of the visitor depend on the arguments of the calls only. -/
structure Visitor.Steady (v : Visitor σ Scope α) : Prop where
  enter : ∀ command enclosing st st',
    (v.enter command enclosing st).1 = (v.enter command enclosing st').1
  leave : ∀ statement scope st st',
    (v.leave statement scope st).1 = (v.leave statement scope st').1

/-- The calls in a text, in order. -/
def Visitor.calls (v : Visitor σ Scope α) (tokens : List Token) (st : σ) : List (Call Scope α) :=
  (visitAll v.recorded none (parse tokens).entries (st, [])).2.2.map Prod.snd

/-- Work with recorded calls that answers and calls in the same way from every state. -/
def Repeats {β : Type} (m : StateM (σ × List (σ × Call Scope α)) β) : Prop :=
  ∀ start start', (m start).1 = (m start').1 ∧ ∃ calls,
    (m start).2.2.map Prod.snd = start.2.map Prod.snd ++ calls ∧
    (m start').2.2.map Prod.snd = start'.2.map Prod.snd ++ calls

namespace Repeats

variable {β γ : Type}

theorem pure (b : β) : Repeats (pure b : StateM (σ × List (σ × Call Scope α)) β) :=
  fun _ _ => ⟨rfl, [], (append_nil _).symm, (append_nil _).symm⟩

theorem bind {m : StateM (σ × List (σ × Call Scope α)) β}
    {f : β → StateM (σ × List (σ × Call Scope α)) γ} (hm : Repeats m) (hf : ∀ b, Repeats (f b)) :
    Repeats (m >>= f) := by
  intro start start'
  obtain ⟨hanswer, calls, hcalls, hcalls'⟩ := hm start start'
  obtain ⟨hlast, later, hlater, hlater'⟩ := hf (m start).1 (m start).2 (m start').2
  have hbind : (m >>= f) start' = f (m start).1 (m start').2 := by
    rw [hanswer]
    rfl
  rw [hbind]
  refine ⟨hlast, calls ++ later, ?_, ?_⟩
  · rw [← append_assoc, ← hcalls, ← hlater]
    rfl
  · rw [← append_assoc, ← hcalls', ← hlater']

end Repeats

namespace Visitor.Steady

variable {v : Visitor σ Scope α}

theorem repeats_enter (hv : v.Steady) (command : Token) (enclosing : Option Scope) :
    Repeats (v.recorded.enter command enclosing) := by
  intro start start'
  refine ⟨hv.enter command enclosing _ _, [.enter command enclosing _], map_append, ?_⟩
  rw [hv.enter command enclosing start.1 start'.1]
  exact map_append

theorem repeats_leave (hv : v.Steady) (statement : Statement α) (scope : Scope) :
    Repeats (v.recorded.leave statement scope) := by
  intro start start'
  refine ⟨hv.leave statement scope _ _, [.leave statement scope _], map_append, ?_⟩
  rw [hv.leave statement scope start.1 start'.1]
  exact map_append

theorem repeats_comment (c : Comment) : Repeats (v.recorded.comment c) :=
  fun _ _ => ⟨rfl, [.comment c], map_append, map_append⟩

mutual

theorem repeats_visit (hv : v.Steady) (enclosing : Option Scope) (entry : Entry) :
    Repeats (entry.visit v.recorded enclosing) := by
  cases entry with
  | comment c => exact (repeats_comment c).bind fun _ => .pure _
  | role label list items => exact (hv.repeats_visitAll enclosing items).bind fun _ => .pure _
  | statement command arguments body closing =>
    refine (hv.repeats_enter command enclosing).bind fun scope =>
      (hv.repeats_visitAll (some scope) body).bind fun members => ?_
    cases closing with
    | none => exact .pure _
    | some closing => exact (hv.repeats_leave _ scope).bind fun _ => .pure _

theorem repeats_visitAll (hv : v.Steady) (enclosing : Option Scope) (entries : List Entry) :
    Repeats (visitAll v.recorded enclosing entries) := by
  cases entries with
  | nil => exact .pure _
  | cons entry entries =>
    exact (hv.repeats_visit enclosing entry).bind fun _ =>
      (hv.repeats_visitAll enclosing entries).bind fun _ => .pure _

end

end Visitor.Steady

/-- A text without a problem, whose last line is no comment line, has no effect on what stands
behind it, be that well-formed or not: the problems are those of what stands behind it, and a
visitor that answers by the arguments of its calls is called for the one and then for the other. -/
theorem calls_append (tokens more : List Token) (hproblems : (parse tokens).problems = [])
    (hlast : (lastLine tokens).map Token.kind ≠ [.comment]) :
    (parse (tokens ++ more)).problems = (parse more).problems ∧
    ∀ (σ Scope α : Type) (v : Visitor σ Scope α), v.Steady → ∀ st st',
      v.calls (tokens ++ more) st = v.calls tokens st ++ v.calls more st' := by
  rw [parse_append hproblems hlast more]
  refine ⟨rfl, fun σ Scope α v hv st st' => ?_⟩
  obtain ⟨-, calls, hcalls, hcalls'⟩ := hv.repeats_visitAll none (parse more).entries
    (visitAll v.recorded none (parse tokens).entries (st, [])).2 (st', [])
  rw [Visitor.calls, parse_append hproblems hlast more, visitAll_append, hcalls]
  exact congrArg _ hcalls'.symm

/-- A line with a command word, and one that begins with a closing brace. -/
theorem calls_append_closeBrace :
    let tokens : List Token := [⟨.identifier "A", 1, none⟩, ⟨.newline, 1, none⟩]
    let more : List Token := [⟨.punct .closeBrace, 2, none⟩, ⟨.identifier "B", 2, none⟩,
      ⟨.newline, 2, none⟩, ⟨.identifier "C", 3, none⟩, ⟨.newline, 3, none⟩]
    let v : Visitor Unit Token Token := ⟨fun word _ => pure word, fun s _ => pure (some s.command),
      fun _ => pure ()⟩
    ((parse (tokens ++ more)).problems.map (·.line) = [2]) ∧
      v.calls (tokens ++ more) () = v.calls tokens () ++ v.calls more () := by
  intro tokens more v
  have hseam := calls_append tokens more rfl (by decide)
  have hv : v.Steady := ⟨fun _ _ _ _ => rfl, fun _ _ _ _ => rfl⟩
  exact ⟨(congrArg _ hseam.1).trans rfl, hseam.2 Unit Token Token v hv () ()⟩

end CommandText
