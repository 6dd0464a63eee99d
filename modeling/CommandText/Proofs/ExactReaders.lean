import CommandText.Proofs.Forms
import Mathlib.Logic.Function.Iterate

/-!
# Readers take their forms

Without a miss, each reader of statements takes its form and nothing else. The readers of repeated
parts do so if their bound allows for the number of unread tokens: for lists of values, arguments
and whole lines one round for each token, for statements two, since a statement and what stands
behind it are rounds of different readers.
-/

namespace CommandText

open Exact ReadM Token

variable (tokens : List Token)

namespace ReadM

open List Reading Form

variable {input : List Token} {bound : Nat} {α : Type}

/-! ### Parts with commas between them -/

/-- A round of parts with commas between them, given a reader of one part and the rounds behind. -/
def commaRound (begins : Token → Bool) (one : ReadM (Option α)) (again : Bool → ReadM (List α))
    (isFirst : Bool) : ReadM (List α) := do
  if ← ReadM.nextIs begins then
    unless isFirst do discard (ReadM.consume [.punct .comma])
    let a ← one
    return a.toList ++ (← again false)
  else return []

/-- So many rounds of parts with commas between them. -/
def commaRounds (begins : Token → Bool) (one : ReadM (Option α)) (n : Nat) :
    Bool → ReadM (List α) :=
  (commaRound begins one)^[n] fun _ => Pure.pure []

theorem commaRounds_succ (begins : Token → Bool) (one : ReadM (Option α)) (n : Nat) :
    commaRounds begins one (n + 1) = commaRound begins one (commaRounds begins one n) :=
  Function.iterate_succ_apply' _ _ _

/-- A part and the rounds behind it. -/
def partRounds (begins : Token → Bool) (one : ReadM (Option α)) (n : Nat) : ReadM (List α) := do
  let a ← one
  return a.toList ++ (← commaRounds begins one n false)

theorem values_eq (bound : Nat) :
    values bound = commaRounds continuesList (ReadM.consume valueKinds) bound := by
  induction bound with
  | zero => rfl
  | succ bound ih =>
    rw [commaRounds_succ, ← ih]
    rfl

theorem argumentRounds_eq (bound : Nat) :
    argumentRounds bound = commaRounds startsArgument argument bound := by
  induction bound with
  | zero => rfl
  | succ bound ih =>
    rw [commaRounds_succ, ← ih]
    rfl

/-! ### Every reader takes steps -/

instance Moves.wholeLines (kind : TokenKind) (bound : Nat) : Moves (wholeLines kind bound) := by
  induction bound with
  | zero => exact .pure _
  | succ bound ih =>
    unfold ReadM.wholeLines
    infer_instance

instance Moves.lineBlock (kind : TokenKind) : Moves (lineBlock kind) := by
  unfold ReadM.lineBlock
  infer_instance

section Rounds

variable {begins : Token → Bool} {one : ReadM (Option α)} [Moves one]

instance Moves.commaRounds (n : Nat) (isFirst : Bool) :
    Moves (commaRounds begins one n isFirst) := by
  induction n generalizing isFirst with
  | zero => exact .pure _
  | succ n ih =>
    rw [commaRounds_succ, commaRound]
    infer_instance

instance Moves.partRounds (n : Nat) : Moves (partRounds begins one n) := by
  unfold ReadM.partRounds
  infer_instance

end Rounds

instance Moves.values (bound : Nat) (isFirst : Bool) : Moves (values bound isFirst) := by
  rw [values_eq]
  infer_instance

instance Moves.argumentValue : Moves argumentValue := by
  unfold ReadM.argumentValue
  infer_instance

instance Moves.argument : Moves argument := by
  unfold ReadM.argument
  infer_instance

instance Moves.argumentRounds (bound : Nat) (isFirst : Bool) :
    Moves (argumentRounds bound isFirst) := by
  rw [argumentRounds_eq]
  infer_instance

instance Moves.arguments : Moves arguments := by
  unfold ReadM.arguments
  infer_instance

instance Moves.block {members : ReadM Body} [Moves members] : Moves (block members) := by
  unfold ReadM.block
  infer_instance

instance Moves.elementList {items : ReadM (List Entry)} [Moves items] :
    Moves (elementList items) := by
  unfold ReadM.elementList
  infer_instance

instance Moves.roleBody {items statement : ReadM (List Entry)} [Moves items] [Moves statement] :
    Moves (roleBody items statement) := by
  unfold ReadM.roleBody
  dsimp only
  refine @Moves.bind _ _ _ _ _ fun _ => @Moves.ite _ _ _ _ _ ?_ ?_
  · infer_instance
  · infer_instance

theorem looseLines_reaches (comments notes : List Token) {r : Reading} (h : r.halted = false) :
    r.Reaches (looseLines comments notes r).2 := by
  unfold looseLines
  cases notes with
  | nil =>
    simp only [head?_nil]
    exact Moves.reaches r
  | cons note notes =>
    -- there are note lines, so no line is passed over
    simp only [isEmpty_cons, Bool.and_false]
    exact (Step.looseNote note.line r h).reaches

instance Moves.command {members : ReadM Body} [Moves members] (above notes : List Token) :
    Moves (command members above notes) := by
  refine @Moves.bind _ _ _ _ _ fun word => ?_
  cases word with
  | none =>
    simp only
    infer_instance
  | some word =>
    simp only
    infer_instance

/-- What follows the lines above a command. -/
instance Moves.belowLines {members : ReadM Body} [Moves members] (isLoose : Bool)
    (comments notes : List Token) :
    Moves (do
      if (← MonadState.get).halted then return []
      else if !(← ReadM.nextIs (·.isKind .identifier)) && isLoose then looseLines comments notes
      else ReadM.command members comments notes) := by
  refine .unlessHalted fun r h => ?_
  change r.Reaches ((if !(r.nextIs (·.isKind .identifier)) && isLoose then looseLines comments notes
    else ReadM.command members comments notes : ReadM (List Entry)) r).2
  split
  · exact looseLines_reaches comments notes h
  · exact Moves.reaches r

theorem moves_recursive (bound : Nat) :
    (∀ loose, Moves (statement bound loose)) ∧ Moves (members bound) ∧
      ∀ stop, Moves (items stop bound) := by
  induction bound with
  | zero => exact ⟨fun _ => .pure _, .pure _, fun _ => .pure _⟩
  | succ bound ih =>
    obtain ⟨ihs, ihm, ihi⟩ := ih
    refine ⟨fun loose => ?_, ?_, fun stop => ?_⟩
    · rw [statement]
      infer_instance
    · rw [ReadM.members]
      infer_instance
    · rw [ReadM.items]
      infer_instance

instance Moves.statement (bound : Nat) (loose : Bool) : Moves (statement bound loose) :=
  (moves_recursive bound).1 loose

instance Moves.members (bound : Nat) : Moves (members bound) := (moves_recursive bound).2.1

instance Moves.items (stop : Option Punct) (bound : Nat) : Moves (items stop bound) :=
  (moves_recursive bound).2.2 stop

/-! ### Looking ahead -/

theorem Exact.ifNext {p : Token → Bool} {m n : ReadM α} {P : α → List Token → Prop}
    (hm : startsWith p input = true → Exact m input P)
    (hn : startsWith p input = false → Exact n input P) :
    Exact (do if ← ReadM.nextIs p then m else n) input P := by
  refine .nextIs_bind ?_
  cases h : startsWith p input with
  | true =>
    rw [show input.head?.any p = true from h]
    exact hm h
  | false =>
    rw [show input.head?.any p = false from h]
    exact hn h

/-! ### Lines -/

theorem Exact.wholeLines (kind : TokenKind) (bound : Nat) (input : List Token)
    (hbound : input.length ≤ bound) : Exact (wholeLines kind bound) input (Lines kind input) := by
  have stop (input : List Token) (h : startsWith (·.isKind kind) input = false) :
      Exact (Pure.pure []) input (Lines kind input) := by
    refine (Exact.pure [] input).congr fun ts rest => ⟨?_, ?_⟩
    · rintro ⟨rfl, rfl⟩
      exact .stop h
    · rintro (_ | ⟨ht, -, -⟩)
      · exact ⟨rfl, rfl⟩
      · simp [ht] at h
  induction bound generalizing input with
  | zero =>
    obtain rfl := length_eq_zero_iff.mp (Nat.le_zero.mp hbound)
    exact stop [] rfl
  | succ bound ih =>
    refine .ifNext (fun hstart => ?_) (stop input)
    obtain ⟨t, input, rfl, ht⟩ := exists_cons_of_startsWith hstart
    rw [length_cons] at hbound
    refine .take_bind ((discard_bind fun n mid hmid _ => (ih mid ?_).map).congr
      fun ts rest => ⟨?_, ?_⟩)
    · rw [hmid, length_cons] at hbound
      omega
    · rintro ⟨n, mid, rfl, hn, ts, hts, rfl⟩
      exact .line ht hn hts
    · rintro (h | ⟨-, hn, hts⟩)
      · rw [hstart] at h
        cases h
      · exact ⟨_, _, rfl, hn, _, hts, rfl⟩

theorem Exact.lineBlock (kind : TokenKind) (input : List Token) :
    Exact (lineBlock kind) input (Lines kind input) :=
  .get_bind fun _ => .wholeLines kind _ input (Nat.le_refl _)

theorem Exact.endComment (input : List Token) :
    Exact endComment input fun comments rest =>
      (∃ t, input = t :: rest ∧ t.isKind .comment = true ∧ comments = endOf t) ∨
      (startsWith (·.isKind .comment) input = false ∧ comments = [] ∧ rest = input) := by
  refine .ifNext (fun h => ?_) fun h => (Exact.pure [] input).congr ?_
  · obtain ⟨t, input, rfl, ht⟩ := exists_cons_of_startsWith h
    refine .take_bind ((Exact.pure (endOf t) input).congr fun comments rest => ⟨?_, ?_⟩)
    · rintro ⟨rfl, rfl⟩
      exact .inl ⟨t, rfl, ht, rfl⟩
    · rintro (⟨t, ⟨⟩, -, rfl⟩ | ⟨h', -, -⟩)
      · exact ⟨rfl, rfl⟩
      · rw [h] at h'
        cases h'
  · intro comments rest
    constructor
    · exact fun hnil => .inr ⟨h, hnil⟩
    · rintro (⟨t, rfl, ht, -⟩ | ⟨-, hnil⟩)
      · simp [ht] at h
      · exact hnil

theorem Exact.closeLine (input : List Token) :
    Exact (do let comments ← ReadM.endComment; ReadM.lineEnd; return comments) input
      (LineEnd input) := by
  refine ((endComment input).bind fun comments mid _ => (Exact.lineEnd mid).map).congr
    fun comments rest => ⟨?_, ?_⟩
  · rintro ⟨_, _, ⟨t, rfl, ht, rfl⟩ | ⟨-, rfl, rfl⟩, _, ⟨n, rfl, hn⟩, rfl⟩
    · exact .comment ht hn
    · exact .bare hn
  · rintro (hn | ⟨ht, hn⟩)
    · refine ⟨[], _, .inr ⟨?_, rfl, rfl⟩, (), ⟨_, rfl, hn⟩, rfl⟩
      rw [startsWith_cons, isKind_eq_false_iff, isKind_iff.mp hn]
      decide
    · exact ⟨_, _, .inl ⟨_, rfl, ht, rfl⟩, (), ⟨_, rfl, hn⟩, rfl⟩

theorem Exact.closeLine_bind {f : List Comment → ReadM α}
    {P : List Comment → List Token → α → List Token → Prop} [∀ comments, Moves (f comments)]
    (h : ∀ comments mid, LineEnd input comments mid → Exact (f comments) mid (P comments mid)) :
    Exact (do let comments ← ReadM.endComment; ReadM.lineEnd; f comments) input fun a rest =>
      ∃ comments mid, LineEnd input comments mid ∧ P comments mid a rest :=
  (closeLine input).bind h

/-! ### Arguments -/

theorem Exact.rounds {begins : Token → Bool} {one : ReadM (Option α)} [Moves one]
    {One : List Token → α → List Token → Prop}
    (hone : ∀ input, Exact one input fun a? rest => ∃ a, a? = some a ∧ One input a rest)
    (hlength : ∀ {input a rest}, One input a rest → rest.length < input.length)
    (hstarts : ∀ {input a rest}, One input a rest → startsWith begins input = true)
    (hcomma : ∀ c : Token, c.isPunct .comma = true → begins c = true) (bound : Nat)
    (isFirst : Bool) (input : List Token) (hbound : input.length < bound) :
    Exact (commaRounds begins one bound isFirst) input (Rounds begins One isFirst input) := by
  induction bound generalizing isFirst input with
  | zero => omega
  | succ bound ih =>
    have next (input : List Token) (hbound : input.length < bound + 1) :
        Exact (partRounds begins one bound) input fun as rest => ∃ a mid as',
          One input a mid ∧ Rounds begins One false mid as' rest ∧ as = a :: as' := by
      refine ((hone input).bind fun a? mid ha => (ih false mid ?_).map).congr
        fun as rest => ⟨?_, ?_⟩
      · obtain ⟨a, -, ha⟩ := ha
        have := hlength ha
        omega
      · rintro ⟨_, mid, ⟨a, rfl, ha⟩, as, has, rfl⟩
        exact ⟨a, mid, as, ha, has, rfl⟩
      · rintro ⟨a, mid, as, ha, has, rfl⟩
        exact ⟨some a, mid, ⟨a, rfl, ha⟩, as, has, rfl⟩
    rw [commaRounds_succ]
    refine .ifNext (fun hstart => ?_) fun hstop => ?_
    · cases isFirst with
      | true =>
        refine (next input hbound).congr fun as rest => ⟨?_, ?_⟩
        · rintro ⟨a, mid, as, ha, h, rfl⟩
          exact .first ha h
        · rintro (hs | ⟨ha, h⟩)
          · rw [hstart] at hs
            cases hs
          · exact ⟨_, _, _, ha, h, rfl⟩
      | false =>
        refine (discard_bind fun c mid hmid _ => next mid ?_).congr fun as rest => ⟨?_, ?_⟩
        · rw [hmid, length_cons] at hbound
          omega
        · rintro ⟨c, _, rfl, hc, a, mid, as, ha, h, rfl⟩
          exact .more hc ha h
        · rintro (hs | _ | ⟨hc, ha, h⟩)
          · rw [hstart] at hs
            cases hs
          · exact ⟨_, _, rfl, hc, _, _, _, ha, h, rfl⟩
    · refine (Exact.pure [] input).congr fun as rest => ⟨?_, ?_⟩
      · rintro ⟨rfl, rfl⟩
        exact .stop hstop
      · rintro (_ | ⟨ha, -⟩ | ⟨hc, -, -⟩)
        · exact ⟨rfl, rfl⟩
        · rw [hstarts ha] at hstop
          cases hstop
        · rw [startsWith_cons, hcomma _ hc] at hstop
          cases hstop

theorem Exact.value (input : List Token) :
    Exact (ReadM.consume valueKinds) input fun v? rest =>
      ∃ v, v? = some v ∧ ValueToken input v rest := by
  refine (consume_bind (f := Pure.pure) fun v mid _ _ => .pure (some v) mid).congr
    fun v? rest => ⟨?_, ?_⟩
  · rintro ⟨v, _, rfl, hv, rfl, rfl⟩
    exact ⟨v, rfl, .mk (any_fits_valueKinds v ▸ hv)⟩
  · rintro ⟨v, rfl, ⟨hv⟩⟩
    exact ⟨v, rest, rfl, (any_fits_valueKinds v).trans hv, rfl, rfl⟩

theorem Exact.values (bound : Nat) (isFirst : Bool) (input : List Token)
    (hbound : input.length < bound) :
    Exact (values bound isFirst) input (Values isFirst input) := by
  rw [values_eq]
  exact .rounds Exact.value ValueToken.length_lt ValueToken.starts
    (fun c hc => by simp [continuesList, hc]) bound isFirst input hbound

theorem Exact.argumentValue (input : List Token) :
    Exact argumentValue input fun v? rest => ∃ v, v? = some v ∧ OneValue input v rest := by
  refine .ifNext (fun h => ?_) fun h => ?_
  · refine (discard_bind fun o mid _ _ => .get_bind fun line =>
      (Exact.values _ true mid (Nat.lt_succ_self _)).bind fun vs mid' _ =>
        discard_bind fun c mid'' _ _ => .pure (some (ArgumentValue.list vs)) mid'').congr
      fun v? rest => ⟨?_, ?_⟩
    · rintro ⟨o, mid, rfl, ho, vs, _, hvs, c, _, rfl, hc, rfl, rfl⟩
      exact ⟨_, rfl, .list ho hvs hc⟩
    · rintro ⟨v, rfl, hv | ⟨ho, hvs, hc⟩⟩
      · rw [startsWith_cons, isPunct_eq_false (kind_ne_punctuation_of_isValue hv)] at h
        cases h
      · exact ⟨_, _, rfl, ho, _, _, hvs, _, _, rfl, hc, rfl, rfl⟩
  · refine (Exact.value input).map.congr fun v? rest => ⟨?_, ?_⟩
    · rintro ⟨_, ⟨v, rfl, ⟨hv⟩⟩, rfl⟩
      exact ⟨_, rfl, .single hv⟩
    · rintro ⟨v, rfl, hv | ⟨ho, -, -⟩⟩
      · exact ⟨_, ⟨_, rfl, .mk hv⟩, rfl⟩
      · simp [ho] at h

theorem Exact.argument (input : List Token) :
    Exact argument input fun a? rest => ∃ a, a? = some a ∧ OneArgument input a rest := by
  refine .ifNext (fun h => ?_) fun h => ?_
  · obtain ⟨l, input, rfl, hl⟩ := exists_cons_of_startsWith h
    refine .take_bind ((argumentValue input).map.congr fun a? rest => ⟨?_, ?_⟩)
    · rintro ⟨_, ⟨v, rfl, hv⟩, rfl⟩
      exact ⟨_, rfl, .labeled hl hv⟩
    · rintro ⟨a, rfl, hv | ⟨-, hv⟩⟩
      · have hstart := hv.starts
        rw [startsWith_cons, isKind_iff] at h
        simp [Token.isValue, isPunct_eq_false (t := l) (by simp [h]), h, TokenKind.isValue,
          TokenKind.values] at hstart
      · exact ⟨_, ⟨_, rfl, hv⟩, rfl⟩
  · refine (argumentValue input).map.congr fun a? rest => ⟨?_, ?_⟩
    · rintro ⟨_, ⟨v, rfl, hv⟩, rfl⟩
      exact ⟨_, rfl, .unlabeled hv⟩
    · rintro ⟨a, rfl, hv | ⟨hl, -⟩⟩
      · exact ⟨_, ⟨_, rfl, hv⟩, rfl⟩
      · simp [hl] at h

theorem Exact.argumentRounds (bound : Nat) (isFirst : Bool) (input : List Token)
    (hbound : input.length < bound) :
    Exact (argumentRounds bound isFirst) input (Arguments isFirst input) := by
  rw [argumentRounds_eq]
  exact .rounds argument OneArgument.length_lt OneArgument.starts
    (fun c hc => by simp [startsArgument, hc]) bound isFirst input hbound

theorem Exact.arguments (input : List Token) :
    Exact arguments input (Arguments true input) :=
  .get_bind fun _ => .argumentRounds _ true input (Nat.lt_succ_self _)

/-! ### Blocks and lists -/

theorem Exact.block {members : ReadM Body} [Moves members]
    (hm : ∀ mid : List Token, mid.length < input.length → Exact members mid (Reads .members mid)) :
    Exact (block members) input (BracedMembers input) := by
  refine (discard_bind fun o mid₁ h₁ _ => closeLine_bind fun header mid₂ h₂ =>
    (hm mid₂ ?_).bind fun b mid₃ _ => discard_bind fun c mid₄ _ _ =>
      .pure (b.1, header ++ b.2) mid₄).congr fun b rest => ⟨?_, ?_⟩
  · have := h₂.length_lt
    rw [h₁, length_cons]
    omega
  · rintro ⟨o, mid₁, rfl, ho, header, mid₂, hh, ⟨body, inner⟩, _, hm, c, _, rfl, hc, rfl, rfl⟩
    exact ⟨ho, hh, hm, hc⟩
  · rintro ⟨ho, hh, hmembers, hc⟩
    exact ⟨_, _, rfl, ho, _, _, hh, _, _, hmembers, _, _, rfl, hc, rfl, rfl⟩

theorem Exact.elementList {items : ReadM (List Entry)} [Moves items]
    (hi : ∀ mid : List Token, mid.length < input.length →
      Exact items mid fun es rest => Reads (.items (some .closeBracket)) mid (es, []) rest) :
    Exact (elementList items) input (BracketedItems input) := by
  refine (discard_bind fun o mid₁ h₁ _ => closeLine_bind fun header mid₂ h₂ =>
    (hi mid₂ ?_).bind fun es mid₃ _ => discard_bind fun c mid₄ _ _ =>
      closeLine_bind fun footer mid₅ _ => .pure (es, header ++ footer) mid₅).congr
    fun b rest => ⟨?_, ?_⟩
  · have := h₂.length_lt
    rw [h₁, length_cons]
    omega
  · rintro ⟨o, mid₁, rfl, ho, header, mid₂, hh, es, _, hi, c, mid₃, rfl, hc,
      footer, _, hf, rfl, rfl⟩
    exact ⟨ho, hh, hi, hc, hf⟩
  · rintro ⟨ho, hh, hitems, hc, hf⟩
    exact ⟨_, _, rfl, ho, _, _, hh, _, _, hitems, _, _, rfl, hc, _, _, hf, rfl, rfl⟩

theorem Exact.breakLine {statement : ReadM (List Entry)} [Moves statement]
    (hs : ∀ mid : List Token, mid.length ≤ input.length →
      Exact statement mid fun es rest => Reads (.statement false) mid (es, []) rest) :
    Exact (do
      if ← ReadM.nextIs fun t => t.isKind .comment || t.isKind .newline then
        let header ← ReadM.endComment
        ReadM.lineEnd
        return (false, ← statement, header)
      else return (false, ← statement, [])) input fun b rest =>
      ∃ header mid es, Break input header mid ∧ Reads (.statement false) mid (es, []) rest ∧
        b = (false, es, header) := by
  refine .ifNext (fun h => ?_) fun h => ?_
  · refine (closeLine_bind fun header mid hmid =>
      (hs mid (Nat.le_of_lt hmid.length_lt)).map).congr fun b rest => ⟨?_, ?_⟩
    · rintro ⟨header, mid, hmid, es, hes, rfl⟩
      exact ⟨header, mid, es, .some hmid, hes, rfl⟩
    · rintro ⟨header, mid, es, h' | hmid, hes, rfl⟩
      · rw [h] at h'
        cases h'
      · exact ⟨header, mid, hmid, es, hes, rfl⟩
  · refine (hs input (Nat.le_refl _)).map.congr fun b rest => ⟨?_, ?_⟩
    · rintro ⟨es, hes, rfl⟩
      exact ⟨[], input, es, .none h, hes, rfl⟩
    · rintro ⟨header, mid, es, - | hmid, hes, rfl⟩
      · exact ⟨es, hes, rfl⟩
      · rw [hmid.starts] at h
        cases h

theorem Exact.roleBody {items statement : ReadM (List Entry)} [Moves items] [Moves statement]
    (hi : ∀ mid : List Token, mid.length < input.length →
      Exact items mid fun es rest => Reads (.items (some .closeBracket)) mid (es, []) rest)
    (hs : ∀ mid : List Token, mid.length ≤ input.length →
      Exact statement mid fun es rest => Reads (.statement false) mid (es, []) rest) :
    Exact (roleBody items statement) input fun b rest =>
      (∃ body, BracketedItems input body rest ∧ b = (true, body)) ∨
      (startsWith (·.isPunct .openBracket) input = false ∧
        ∃ header mid es, Break input header mid ∧ Reads (.statement false) mid (es, []) rest ∧
          b = (false, es, header)) := by
  refine .ifNext (fun h => ?_) fun h => ?_
  · refine (elementList hi).map.congr fun b rest => ⟨.inl, ?_⟩
    rintro (hb | ⟨h', -⟩)
    · exact hb
    · rw [h] at h'
      cases h'
  · refine (breakLine hs).congr fun b rest => ⟨fun hb => .inr ⟨h, hb⟩, ?_⟩
    rintro (⟨_, ⟨ho, -⟩, -⟩ | ⟨-, hb⟩)
    · rw [startsWith_cons, ho] at h
      cases h
    · exact hb

/-! ### Statements -/

theorem Exact.looseLines (comments notes : List Token)
    (hi : startsWith (·.isKind .identifier) input = false) :
    Exact (looseLines comments notes) input fun es rest =>
      notes = [] ∧ comments ≠ [] ∧ es = (commentOf .loose comments).map .comment ∧
      rest = input := by
  unfold ReadM.looseLines
  cases notes with
  | cons note notes =>
    simp only [head?_cons, isEmpty_cons, Bool.and_false]
    intro line es rest
    refine iff_of_false ?_ (by simp)
    rintro ⟨line', h⟩
    exact absurd (congrArg (·.2.log) h) (cons_ne_nil _ _)
  | nil =>
    cases comments with
    | nil =>
      refine (discard_bind (P := fun _ _ _ => False) fun t mid hmid ht => ?_).congr (by simp)
      rw [hmid, startsWith_cons] at hi
      exact absurd hi (by simpa [Expected.fits] using ht)
    | cons t ts => exact (Exact.pure _ input).congr (by simp)

theorem Exact.command {members : ReadM Body} [Moves members]
    (hm : ∀ mid : List Token, mid.length + 1 < input.length →
      Exact members mid (Reads .members mid))
    (above notes : List Token) :
    Exact (command members above notes) input fun es rest =>
      Reads (.command above notes) input (es, []) rest := by
  have ends (word : Token) (args : List Argument) (body : List Entry) (inner : List Comment)
      (input : List Token) :
      Exact (do
        let footer ← ReadM.endComment
        ReadM.lineEnd
        return [Entry.statement word args body (if (← get).halted then none
          else some ⟨commentOf .above above ++ inner ++ footer, noteOf notes⟩)]) input
        fun es rest => ∃ footer, LineEnd input footer rest ∧
          es = [Entry.statement word args body (closing above notes inner footer)] := by
    refine (closeLine_bind fun footer mid _ => .get_bind fun _ =>
      .pure [Entry.statement word args body (closing above notes inner footer)] mid).congr
      fun es rest => ⟨?_, ?_⟩
    · rintro ⟨footer, _, hf, rfl, rfl⟩
      exact ⟨footer, hf, rfl⟩
    · rintro ⟨footer, hf, rfl⟩
      exact ⟨footer, _, hf, rfl, rfl⟩
  refine (consume_bind fun word mid hmid _ => (arguments mid).bind fun args mid' hargs =>
    Exact.ifNext (P := fun es rest =>
      (∃ footer, LineEnd mid' footer rest ∧
        es = [Entry.statement word args [] (closing above notes [] footer)]) ∨
      ∃ b mid₃, BracedMembers mid' b mid₃ ∧ ∃ footer, LineEnd mid₃ footer rest ∧
        es = [Entry.statement word args b.1 (closing above notes b.2 footer)])
      (fun h => ?_) fun h => ?_).congr fun es rest => ⟨?_, ?_⟩
  · refine ((Exact.block fun mid₂ hlen => hm mid₂ ?_).bind fun b mid₃ _ =>
      ends word args b.1 b.2 mid₃).congr fun es rest => ⟨.inr, ?_⟩
    · have := Arguments.length_le hargs
      rw [hmid, length_cons]
      omega
    · rintro (⟨footer, hf, -⟩ | hb)
      · obtain ⟨o, _, rfl, ho⟩ := exists_cons_of_startsWith h
        have hstart := hf.starts
        rw [startsWith_cons, Bool.or_eq_true, isKind_iff, isKind_iff,
          kind_of_isPunct ho] at hstart
        simp at hstart
      · exact hb
  · refine (ends word args [] [] mid').congr fun es rest => ⟨.inl, ?_⟩
    rintro (hf | ⟨_, _, ⟨ho, -⟩, -⟩)
    · exact hf
    · rw [startsWith_cons, ho] at h
      cases h
  · rintro ⟨word, mid, rfl, hw, args, mid', hargs,
      ⟨footer, hf, rfl⟩ | ⟨_, _, ⟨ho, hh, hm, hc⟩, footer, hf, rfl⟩⟩
    · exact .leaf (by simpa [Expected.fits] using hw) hargs hf
    · exact .branch (by simpa [Expected.fits] using hw) hargs ho hh hm hc hf
  · rintro (⟨hw, hargs, hf⟩ | ⟨hw, hargs, ho, hh, hmembers, hc, hf⟩)
    · exact ⟨_, _, rfl, by simpa [Expected.fits] using hw, _, _, hargs, .inl ⟨_, hf, rfl⟩⟩
    · exact ⟨_, _, rfl, by simpa [Expected.fits] using hw, _, _, hargs,
        .inr ⟨_, _, ⟨ho, hh, hmembers, hc⟩, _, hf, rfl⟩⟩

theorem Exact.statement_succ (isLoose : Bool)
    (hm : ∀ mid : List Token, mid.length + 1 < input.length →
      Exact (members bound) mid (Reads .members mid)) :
    Exact (statement (bound + 1) isLoose) input fun es rest =>
      Reads (.statement isLoose) input (es, []) rest := by
  rw [statement]
  refine ((lineBlock .comment input).bind fun above mid₁ h₁ =>
    (lineBlock .note mid₁).bind fun notes mid₂ h₂ => .get_bind fun line => .nextIs_bind
      (P := fun es rest =>
        if startsWith (·.isKind .identifier) mid₂ = false ∧ isLoose = true then
          notes = [] ∧ above ≠ [] ∧ es = (commentOf .loose above).map .comment ∧ rest = mid₂
        else Reads (.command above notes) mid₂ (es, []) rest) ?_).congr fun es rest => ⟨?_, ?_⟩
  · have hlen := Nat.le_trans h₂.length_le h₁.length_le
    change Exact (if !(startsWith (·.isKind .identifier) mid₂) && isLoose then
      ReadM.looseLines above notes else ReadM.command (ReadM.members bound) above notes) mid₂ _
    by_cases h : startsWith (·.isKind .identifier) mid₂ = false ∧ isLoose = true
    · simp only [h, Bool.not_false, Bool.and_self, if_true, and_self]
      exact .looseLines above notes h.1
    · simp only [h, if_false]
      rw [if_neg (by simpa using h)]
      exact .command (fun mid hmid => hm mid (by omega)) above notes
  · rintro ⟨above, mid₁, h₁, notes, mid₂, h₂, h⟩
    split at h
    · next hloose =>
      obtain ⟨rfl, habove, rfl, rfl⟩ := h
      obtain ⟨hi, rfl⟩ := hloose
      cases h₂ with
      | stop hn => exact .loose h₁ habove hn hi
    · exact .lead h₁ h₂ h
  · intro h
    cases h with
    | lead h₁ h₂ h =>
      refine ⟨_, _, h₁, _, _, h₂, ?_⟩
      rwa [if_neg (by simp [h.starts_command])]
    | loose h₁ habove hn hi =>
      refine ⟨_, _, h₁, [], _, .stop hn, ?_⟩
      rw [if_pos ⟨hi, rfl⟩]
      exact ⟨rfl, habove, rfl, rfl⟩

theorem Exact.members_succ
    (hs : ∀ (isLoose : Bool) (mid : List Token), mid.length ≤ input.length →
      Exact (statement bound isLoose) mid fun es rest =>
        Reads (.statement isLoose) mid (es, []) rest)
    (hm : ∀ mid : List Token, mid.length < input.length →
      Exact (members bound) mid (Reads .members mid))
    (hi : ∀ mid : List Token, mid.length < input.length →
      Exact (items (some .closeBracket) bound) mid fun es rest =>
        Reads (.items (some .closeBracket)) mid (es, []) rest) :
    Exact (members (bound + 1)) input (Reads .members input) := by
  rw [ReadM.members]
  refine .nextIs_bind ?_
  cases hstop : startsWith (fun t => !t.isPunct .closeBrace) input with
  | false =>
    rw [show input.head?.any _ = false from hstop]
    refine (Exact.pure ([], []) input).congr fun b rest => ⟨?_, fun h => ?_⟩
    · rintro ⟨rfl, rfl⟩
      exact .noMember hstop
    · cases h with
      | noMember => exact ⟨rfl, rfl⟩
      | listMember hl | roleMember hl =>
        rw [startsWith_cons, isPunct_eq_false (by simp [isKind_iff.mp hl])] at hstop
        cases hstop
      | member hs =>
        have hgoes := startsWith_not_stop hs.starts_statement (some .closeBrace)
        exact absurd (hgoes.symm.trans hstop) (by simp)
  | true =>
    rw [show input.head?.any _ = true from hstop]
    refine .ifNext (fun h => ?_) fun h => ?_
    · obtain ⟨l, input, rfl, hl⟩ := exists_cons_of_startsWith h
      refine .take_bind (((roleBody (fun mid hmid => hi mid (Nat.lt_succ_of_lt hmid))
        fun mid hmid => hs false mid (Nat.le_succ_of_le hmid)).bind fun role mid hrole =>
          (hm mid ?_).map).congr fun b rest => ⟨?_, fun h => ?_⟩)
      · rw [length_cons]
        rcases hrole with ⟨_, ⟨_, hh, hitems, _, hf⟩, -⟩ | ⟨-, header, mid₁, es, hb, hstatement, -⟩
        · have := hh.length_lt
          have := hitems.length_le
          have := hf.length_lt
          simp only [length_cons, Part.least] at *
          omega
        · have := hb.length_le
          have := hstatement.length_lt_of_statement
          omega
      · rintro ⟨_, mid, ⟨_, ⟨ho, hh, hitems, hc, hf⟩, rfl⟩ |
          ⟨ho, header, mid₁, es, hb, hstatement, rfl⟩, ⟨later, comments⟩, hlater, rfl⟩
        · exact .listMember hl ho hh hitems hc hf hlater
        · exact .roleMember hl ho hb hstatement hlater
      · cases h with
        | noMember h' =>
          rw [hstop] at h'
          cases h'
        | listMember _ ho hh hitems hc hf hlater =>
          exact ⟨_, _, .inl ⟨_, ⟨ho, hh, hitems, hc, hf⟩, rfl⟩, _, hlater, rfl⟩
        | roleMember _ ho hb hstatement hlater =>
          exact ⟨_, _, .inr ⟨ho, _, _, _, hb, hstatement, rfl⟩, _, hlater, rfl⟩
        | member hstatement =>
          have hstart := hstatement.starts_statement
          rw [startsWith_cons, opensStatement_eq_false_of_label hl] at hstart
          cases hstart
    · refine ((hs true input (Nat.le_refl _)).bind fun es mid hes =>
        (hm mid hes.length_lt_of_statement).map).congr fun b rest => ⟨?_, fun h' => ?_⟩
      · rintro ⟨es, mid, hes, ⟨later, comments⟩, hlater, rfl⟩
        exact .member hes hlater
      · cases h' with
        | noMember h' =>
          rw [hstop] at h'
          cases h'
        | listMember hl | roleMember hl =>
          rw [startsWith_cons, hl] at h
          cases h
        | member hes hlater => exact ⟨_, _, hes, _, hlater, rfl⟩

theorem Exact.items_succ {stop : Option Punct}
    (hs : Exact (statement bound true) input fun es rest =>
      Reads (.statement true) input (es, []) rest)
    (hi : ∀ mid : List Token, mid.length < input.length →
      Exact (items stop bound) mid fun es rest => Reads (.items stop) mid (es, []) rest) :
    Exact (items stop (bound + 1)) input fun es rest =>
      Reads (.items stop) input (es, []) rest := by
  rw [ReadM.items]
  refine .nextIs_bind ?_
  cases hstop : startsWith (fun t => !stop.any t.isPunct) input with
  | false =>
    rw [show input.head?.any _ = false from hstop]
    refine (Exact.pure [] input).congr fun es rest => ⟨?_, fun h => ?_⟩
    · rintro ⟨rfl, rfl⟩
      exact .noItem hstop
    · cases h with
      | noItem => exact ⟨rfl, rfl⟩
      | item hs =>
        rw [startsWith_not_stop hs.starts_statement] at hstop
        cases hstop
  | true =>
    rw [show input.head?.any _ = true from hstop]
    refine (hs.bind fun es mid hes => (hi mid hes.length_lt_of_statement).map).congr
      fun es rest => ⟨?_, fun h => ?_⟩
    · rintro ⟨es, mid, hes, later, hlater, rfl⟩
      exact .item hes hlater
    · cases h with
      | noItem h' =>
        rw [hstop] at h'
        cases h'
      | item hes hlater => exact ⟨_, _, hes, _, hlater, rfl⟩

theorem exact_recursive (bound : Nat) :
    (∀ (isLoose : Bool) (input : List Token), 2 * input.length < bound →
      Exact (statement bound isLoose) input fun es rest =>
        Reads (.statement isLoose) input (es, []) rest) ∧
    (∀ input : List Token, 2 * input.length + 1 < bound →
      Exact (members bound) input (Reads .members input)) ∧
    ∀ (stop : Option Punct) (input : List Token), 2 * input.length + 1 < bound →
      Exact (items stop bound) input fun es rest => Reads (.items stop) input (es, []) rest := by
  induction bound with
  | zero => exact ⟨by omega, by omega, by omega⟩
  | succ bound ih =>
    obtain ⟨ihs, ihm, ihi⟩ := ih
    refine ⟨fun isLoose input h => ?_, fun input h => ?_, fun stop input h => ?_⟩
    · exact .statement_succ isLoose fun mid hmid => ihm mid (by omega)
    · exact .members_succ (fun isLoose mid hmid => ihs isLoose mid (by omega))
        (fun mid hmid => ihm mid (by omega)) fun mid hmid => ihi _ mid (by omega)
    · exact .items_succ (ihs true input (by omega)) fun mid hmid => ihi stop mid (by omega)

end ReadM

/-! ### Whole texts -/

namespace Form

theorem Reads.rest_eq_nil {input : List Token} {b : ReadM.Body} {rest : List Token}
    (h : Reads (.items none) input b rest) : rest = [] := by
  generalize hpart : Part.items none = part at h
  induction h with
  | noItem h =>
    cases hpart
    cases ‹List Token› with
    | nil => rfl
    | cons => cases h
  | item _ _ _ ih => exact ih hpart
  | _ => cases hpart

end Form

open Form Reading

theorem readAll_quiet_iff (es : List Entry) (rest : List Token) :
    (∃ line, readAll tokens = (es, quiet rest line)) ↔ Reads (.items none) tokens (es, []) rest :=
  (exact_recursive _).2.2 none tokens (by omega) 1 es rest

theorem parse_eq_iff (es : List Entry) :
    parse tokens = ⟨es, []⟩ ↔ Reads (.items none) tokens (es, []) [] := by
  have hreach : (quiet tokens 1).Reaches (readAll tokens).2 :=
    (ReadM.Moves.items none (2 * tokens.length + 2)).reaches (quiet tokens 1)
  constructor
  · intro h
    obtain ⟨rfl, hproblems⟩ := Parsed.mk.inj h
    obtain ⟨rest, line, hquiet, -⟩ :=
      hreach.quiet_of_log_eq_nil (hreach.log_eq_nil_of_problems_eq_nil hproblems)
    have hreads : Reads (.items none) tokens ((readAll tokens).1, []) rest :=
      (readAll_quiet_iff _ _ _).mp ⟨line, Prod.ext rfl hquiet⟩
    exact hreads.rest_eq_nil ▸ hreads
  · intro h
    obtain ⟨line, hquiet⟩ := (readAll_quiet_iff _ _ _).mpr h
    rw [parse, hquiet]
    rfl

theorem parse_problems_eq_nil_iff :
    (parse tokens).problems = [] ↔ ∃ es, Reads (.items none) tokens (es, []) [] := by
  simp only [← parse_eq_iff]
  constructor
  · intro h
    exact ⟨(parse tokens).entries, congrArg (Parsed.mk (parse tokens).entries) h⟩
  · rintro ⟨es, h⟩
    rw [h]

end CommandText
