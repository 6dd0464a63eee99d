import CommandText.Proofs.GivenUp

/-!
# Enough rounds

The readers of repeated parts are bounded in the number of their rounds. Here a round is taken by
itself, as a function of the rounds behind it, and iterated: whatever is done where the rounds run
out, as many as there are tokens, or twice as many for statements, already give what the bounded
readers give. So no bound is ever met, and the rounds come to an end by themselves.
-/

namespace CommandText

variable {rest : List Token} {n bound : Nat} {t : Token} (kind : TokenKind)

namespace ReadM

open Reading

variable {α β : Type} {r : Reading}

/-! ### Readers that agree -/

theorem bind_agree_at {m : ReadM α} {f g : α → ReadM β} {r : Reading}
    (h : f (m r).1 (m r).2 = g (m r).1 (m r).2) : (m >>= f) r = (m >>= g) r := h

theorem nextIs_agree {p : Token → Bool} {f g : Bool → ReadM α} {r : Reading}
    (h : f (r.nextIs p) r = g (r.nextIs p) r) : (nextIs p >>= f) r = (nextIs p >>= g) r := h

theorem bind_agree {m : ReadM α} [hm : Moves m] {f g : α → ReadM β} {r : Reading}
    (h : ∀ a s, s.pending ≤ r.pending → f a s = g a s) : (m >>= f) r = (m >>= g) r :=
  h _ _ (hm.reaches r).pending_le

theorem agree_bind {m n : ReadM α} {f : α → ReadM β} {r : Reading} (h : m r = n r) :
    (m >>= f) r = (n >>= f) r := by
  rw [bind_apply, bind_apply, h]

section Agree

theorem block_agree {f g : ReadM Body} (h : ∀ s, s.pending ≤ r.pending → f s = g s) :
    block f r = block g r := by
  unfold block
  refine bind_agree fun _ _ h₁ => bind_agree fun _ _ h₂ => bind_agree fun _ s h₃ => ?_
  exact agree_bind (h s (by omega))

theorem elementList_agree {f g : ReadM (List Entry)} (h : ∀ s, s.pending ≤ r.pending → f s = g s) :
    elementList f r = elementList g r := by
  unfold elementList
  refine bind_agree fun _ _ h₁ => bind_agree fun _ _ h₂ => bind_agree fun _ s h₃ => ?_
  exact agree_bind (h s (by omega))

theorem roleBody_agree {f g f' g' : ReadM (List Entry)}
    (h : ∀ s, s.pending ≤ r.pending → f s = g s) (h' : ∀ s, s.pending ≤ r.pending → f' s = g' s) :
    roleBody f f' r = roleBody g g' r := by
  unfold roleBody
  refine bind_agree fun isList s hs => ?_
  split
  · exact agree_bind (elementList_agree fun s' hs' => h s' (by omega))
  · refine bind_agree fun isBroken s₁ h₁ => ?_
    split
    · refine bind_agree fun _ _ h₂ => bind_agree fun _ s h₃ => ?_
      exact agree_bind (f := fun es => pure (false, es, _)) (h' s (by omega))
    · exact agree_bind (f := fun es => pure (false, es, [])) (h' s₁ (by omega))

theorem command_agree {f g : ReadM Body} (h : ∀ s, s.pending < r.pending → f s = g s)
    (above notes : List Token) : command f above notes r = command g above notes r := by
  rw [command, command, bind_apply, bind_apply]
  generalize hc : consume [.kind .identifier] r = c
  obtain ⟨word, s⟩ := c
  cases word with
  | none => rfl
  | some word =>
    have hs : s.pending < r.pending := by
      have hc' : r.consume [.kind .identifier] = (some word, s) := hc
      have := pending_consume (congrArg Prod.fst hc')
      rwa [hc'] at this
    change (arguments >>= _) s = (arguments >>= _) s
    refine bind_agree fun args s₁ h₁ => bind_agree fun hasBlock s₂ h₂ => ?_
    split
    · exact agree_bind (block_agree fun s₃ h₃ => h s₃ (by omega))
    · rfl

end Agree

/-! ### Whole lines -/

/-- A round of whole lines, given the rounds behind it. -/
def linesRound (kind : TokenKind) (again : ReadM (List Token)) : ReadM (List Token) := do
  if ← nextIs (·.isKind kind) then
    let first ← take
    discard (consume [.kind .newline])
    return first.toList ++ (← again)
  else return []

theorem wholeLines_succ (bound : Nat) :
    wholeLines kind (bound + 1) = linesRound kind (wholeLines kind bound) := rfl

theorem iterate_wholeLines (out : ReadM (List Token)) {r : Reading} (hn : r.pending < n)
    (hbound : r.pending ≤ bound) : (linesRound kind)^[n] out r = wholeLines kind bound r := by
  induction n generalizing r bound with
  | zero => omega
  | succ n ih =>
    rw [Function.iterate_succ_apply', linesRound, nextIs_bind_apply]
    cases hnext : r.nextIs (·.isKind kind) with
    | false =>
      cases bound with
      | zero => rfl
      | succ bound =>
        rw [wholeLines_succ, linesRound, nextIs_bind_apply, hnext]
        rfl
    | true =>
      have hpos := pending_pos_of_nextIs hnext
      obtain ⟨bound, rfl⟩ := Nat.exists_eq_add_one_of_ne_zero (show bound ≠ 0 by omega)
      rw [wholeLines_succ, linesRound, nextIs_bind_apply, hnext, if_pos rfl, if_pos rfl]
      have hlt : (take r).2.pending < r.pending := pending_advance hpos
      refine bind_agree_at (bind_agree fun _ s hs => ?_)
      exact agree_bind (ih (by omega) (by omega))

theorem iterate_linesRound (out : ReadM (List Token)) {r : Reading} (hn : r.rest.length < n) :
    (linesRound kind)^[n] out r = lineBlock kind r :=
  iterate_wholeLines kind out (Nat.lt_of_le_of_lt r.pending_le_length hn) r.pending_le_length

/-! ### Values and arguments -/

section Comma

variable {begins : Token → Bool} {one : ReadM (Option α)} [Moves one]
  (hone : ∀ {r : Reading} {t : Token} {rest : List Token}, r.halted = false → r.rest = t :: rest →
    begins t = true → t.isPunct .comma = false → t.kind ≠ .error → (one r).2.pending < r.pending)
include hone

theorem pending_comma_lt {r : Reading} (h : r.nextIs begins = true) :
    (one (r.consume [.punct .comma]).2).2.pending < r.pending := by
  have hpos := pending_pos_of_nextIs h
  obtain ⟨hhalted, t, rest, hrest⟩ := exists_rest_of_pending_pos hpos
  have hbegins : begins t = true := by rwa [Reading.nextIs, next?_of_rest hhalted, hrest] at h
  have hle (s : Reading) : (one s).2.pending ≤ s.pending := (Moves.reaches s).pending_le
  have hc := consumed [.punct .comma] r
  generalize r.consume [.punct .comma] = c at hc ⊢
  cases hc with
  | givenUp h' => simp [hhalted] at h'
  | atEnd _ h' => simp [hrest] at h'
  | fits _ hrest' | bad _ hrest' =>
    refine Nat.lt_of_le_of_lt (hle _) (pending_lt_of_suffix_tail hpos ?_)
    exact hrest' ▸ List.suffix_refl _
  | missed _ hrest' hfits hkind =>
    obtain ⟨rfl, rfl⟩ := List.cons.inj (hrest.symm.trans hrest')
    generalize hs : (r.report (.unexpected t.lexeme [.punct .comma]) t.line).fail t.line = s
    have hsrest : s.rest = t :: rest := by rw [← hs, rest_fail]; exact hrest
    cases hshalted : s.halted with
    | true =>
      have := hle s
      rw [pending_of_halted hshalted] at this
      exact Nat.lt_of_le_of_lt this hpos
    | false =>
      have := hone hshalted hsrest hbegins (by simpa [Expected.fits] using hfits) hkind
      rwa [pending_of_not_halted hshalted, hsrest, ← hrest, ← pending_of_not_halted hhalted] at this

theorem iterate_commaRound (out : Bool → ReadM (List α)) {isFirst : Bool} {r : Reading}
    (hn : r.pending + isFirst.toNat < n) (hbound : r.pending + isFirst.toNat ≤ bound) :
    (commaRound begins one)^[n] out isFirst r = commaRounds begins one bound isFirst r := by
  induction n generalizing r bound isFirst with
  | zero => omega
  | succ n ih =>
    rw [Function.iterate_succ_apply', commaRound, nextIs_bind_apply]
    cases hnext : r.nextIs begins with
    | false =>
      cases bound with
      | zero => rfl
      | succ bound =>
        rw [commaRounds_succ, commaRound, nextIs_bind_apply, hnext]
        rfl
    | true =>
      have hpos := pending_pos_of_nextIs hnext
      obtain ⟨bound, rfl⟩ := Nat.exists_eq_add_one_of_ne_zero (show bound ≠ 0 by omega)
      rw [commaRounds_succ, commaRound, nextIs_bind_apply, hnext, if_pos rfl, if_pos rfl]
      cases isFirst with
      | true =>
        rw [Bool.toNat_true] at hn hbound
        refine bind_agree fun a s hs => agree_bind ?_
        exact ih (by simp only [Bool.toNat_false]; omega) (by simp only [Bool.toNat_false]; omega)
      | false =>
        rw [Bool.toNat_false] at hn hbound
        have hlt : (one (discard (consume [.punct .comma]) r).2).2.pending < r.pending :=
          pending_comma_lt hone hnext
        rw [if_neg Bool.false_ne_true, if_neg Bool.false_ne_true]
        refine bind_agree_at (bind_agree_at (agree_bind ?_))
        exact ih (by simp only [Bool.toNat_false]; omega) (by simp only [Bool.toNat_false]; omega)

end Comma

theorem pending_value_lt {r : Reading} (h : r.halted = false) (hrest : r.rest = t :: rest)
    (ht : t.isValue = true) : (consume valueKinds r).2.pending < r.pending :=
  pending_consume (congrArg Prod.fst
    (consume_of_fits valueKinds h hrest ((any_fits_valueKinds t).trans ht)))

theorem pending_argumentValue_lt {r : Reading} (h : r.halted = false) (hrest : r.rest = t :: rest)
    (ht : t.isValue = true ∨ t.isPunct .openBracket = true) :
    (argumentValue r).2.pending < r.pending := by
  have hnext : r.nextIs (·.isPunct .openBracket) = t.isPunct .openBracket := by
    rw [Reading.nextIs, next?_of_rest h, hrest, List.head?_cons, Option.any_some]
  rw [argumentValue, nextIs_bind_apply, hnext]
  cases hopen : t.isPunct .openBracket with
  | true =>
    rw [if_pos rfl, bind_apply]
    refine Nat.lt_of_le_of_lt (Moves.reaches _).pending_le (pending_consume (t := t) ?_)
    rw [consume_of_fits _ h hrest (by simp [Expected.fits, hopen])]
  | false =>
    have hvalue := pending_value_lt h hrest (ht.resolve_right (by simp [hopen]))
    exact hvalue

theorem pending_argument_lt {r : Reading} (h : r.halted = false) (hrest : r.rest = t :: rest)
    (hbegins : startsArgument t = true) (hcomma : t.isPunct .comma = false)
    (hkind : t.kind ≠ .error) : (argument r).2.pending < r.pending := by
  have hnext : r.nextIs (·.isKind .label) = t.isKind .label := by
    rw [Reading.nextIs, next?_of_rest h, hrest, List.head?_cons, Option.any_some]
  rw [argument, nextIs_bind_apply, hnext]
  cases hlabel : t.isKind .label with
  | true =>
    rw [if_pos rfl, bind_apply]
    refine Nat.lt_of_le_of_lt (Moves.reaches _).pending_le (pending_advance ?_)
    rw [pending_of_not_halted h, hrest]
    exact Nat.succ_pos _
  | false =>
    refine pending_argumentValue_lt h hrest ?_
    simpa [startsArgument, hlabel, hcomma, Token.isKind_eq_false_iff.mpr hkind] using hbegins

theorem iterate_valuesRound (out : Bool → ReadM (List Token)) {r : Reading}
    (hn : r.rest.length + 1 < n) : (commaRound continuesList (consume valueKinds))^[n] out true r =
      values (r.rest.length + 1) true r := by
  have hpending := r.pending_le_length
  rw [values_eq]
  refine iterate_commaRound ?_ out ?_ ?_
  · intro r t rest h hrest hbegins hcomma hkind
    refine pending_value_lt h hrest ?_
    simpa [continuesList, hcomma, Token.isKind_eq_false_iff.mpr hkind] using hbegins
  · rw [Bool.toNat_true]
    omega
  · rw [Bool.toNat_true]
    omega

theorem iterate_argumentRound (out : Bool → ReadM (List Argument)) {r : Reading}
    (hn : r.rest.length + 1 < n) :
    (commaRound startsArgument argument)^[n] out true r = arguments r := by
  have hpending := r.pending_le_length
  change _ = argumentRounds (r.rest.length + 1) true r
  rw [argumentRounds_eq]
  refine iterate_commaRound pending_argument_lt out ?_ ?_
  · rw [Bool.toNat_true]
    omega
  · rw [Bool.toNat_true]
    omega

/-! ### Statements -/

/-- Readers of statements and of what holds them. -/
structure Readers where
  statement : Bool → ReadM (List Entry)
  members : ReadM Body
  items : Option Punct → ReadM (List Entry)

/-- A round of the readers of statements, given the rounds behind it. -/
def Readers.round (again : Readers) : Readers where
  statement isLoose := do
    let comments ← lineBlock .comment
    let notes ← lineBlock .note
    if (← get).halted then return []
    else if !(← nextIs (·.isKind .identifier)) && isLoose then looseLines comments notes
    else command again.members comments notes
  members := do
    if !(← nextIs fun t => !t.isPunct .closeBrace) then return ([], [])
    else if ← nextIs (·.isKind .label) then
      let label ← take
      let (list, entries, comments) ←
        roleBody (again.items (some .closeBracket)) (again.statement false)
      let (laterEntries, laterComments) ← again.members
      return (label.toList.map (.role · list entries) ++ laterEntries, comments ++ laterComments)
    else
      let entries ← again.statement true
      let (laterEntries, comments) ← again.members
      return (entries ++ laterEntries, comments)
  items stop := do
    if !(← nextIs fun t => !stop.any t.isPunct) then return []
    else
      let entries ← again.statement true
      return entries ++ (← again.items stop)

/-- The readers with a bound on their rounds. -/
def bounded (bound : Nat) : Readers :=
  ⟨statement bound, members bound, fun stop => items stop bound⟩

section Round

variable {f : Readers}

theorem round_statement (isLoose : Bool)
    (h : ∀ s, s.pending < r.pending → f.members s = members bound s) :
    f.round.statement isLoose r = statement (bound + 1) isLoose r := by
  refine bind_agree fun comments s₁ h₁ => bind_agree fun notes s₂ h₂ => ?_
  rw [unlessHalted_apply, unlessHalted_apply]
  split
  · rfl
  · refine nextIs_agree ?_
    split
    · rfl
    · exact command_agree (fun s hs => h s (by omega)) comments notes

theorem round_members (hbound : bound ≠ 0)
    (hs : ∀ isLoose s, s.pending ≤ r.pending → f.statement isLoose s = statement bound isLoose s)
    (hm : ∀ s, s.pending < r.pending → f.members s = members bound s)
    (hi : ∀ s, s.pending < r.pending →
      f.items (some .closeBracket) s = items (some .closeBracket) bound s) :
    f.round.members r = members (bound + 1) r := by
  refine nextIs_agree ?_
  cases hnext : r.nextIs fun t => !t.isPunct .closeBrace with
  | false => rfl
  | true =>
    have hpos := pending_pos_of_nextIs hnext
    rw [Bool.not_true, if_neg Bool.false_ne_true, if_neg Bool.false_ne_true]
    refine nextIs_agree ?_
    split
    · have hlt : (take r).2.pending < r.pending := pending_advance hpos
      refine bind_agree_at ?_
      have hrole := roleBody_agree (r := (take r).2) (fun s hs' => hi s (by omega))
        fun s hs' => hs false s (by omega)
      refine (agree_bind hrole).trans (bind_agree fun b s hs' => ?_)
      exact agree_bind (hm s (by omega))
    · obtain ⟨bound, rfl⟩ := Nat.exists_eq_add_one_of_ne_zero hbound
      refine (agree_bind (hs true r (Nat.le_refl _))).trans (bind_agree_at ?_)
      exact agree_bind (hm _ (pending_statement_lt bound hpos))

theorem round_items (hbound : bound ≠ 0) (stop : Option Punct)
    (hs : f.statement true r = statement bound true r)
    (hi : ∀ s, s.pending < r.pending → f.items stop s = items stop bound s) :
    f.round.items stop r = items stop (bound + 1) r := by
  refine nextIs_agree ?_
  cases hnext : r.nextIs fun t => !stop.any t.isPunct with
  | false => rfl
  | true =>
    have hpos := pending_pos_of_nextIs hnext
    rw [Bool.not_true, if_neg Bool.false_ne_true, if_neg Bool.false_ne_true]
    obtain ⟨bound, rfl⟩ := Nat.exists_eq_add_one_of_ne_zero hbound
    refine (agree_bind hs).trans (bind_agree_at ?_)
    exact agree_bind (hi _ (pending_statement_lt bound hpos))

end Round

theorem iterate_round (out : Readers) (n bound : Nat) (r : Reading) :
    (2 * r.pending < n → 2 * r.pending < bound → ∀ isLoose,
      (Readers.round^[n] out).statement isLoose r = statement bound isLoose r) ∧
    (2 * r.pending + 1 < n → 2 * r.pending + 1 < bound →
      (Readers.round^[n] out).members r = members bound r) ∧
    (2 * r.pending + 1 < n → 2 * r.pending + 1 < bound → ∀ stop,
      (Readers.round^[n] out).items stop r = items stop bound r) := by
  induction n generalizing bound r with
  | zero => exact ⟨by omega, by omega, by omega⟩
  | succ n ih =>
    cases bound with
    | zero => exact ⟨by omega, by omega, by omega⟩
    | succ bound =>
      rw [Function.iterate_succ_apply']
      refine ⟨fun hn hb isLoose => ?_, fun hn hb => ?_, fun hn hb stop => ?_⟩
      · exact round_statement isLoose fun s hs => (ih bound s).2.1 (by omega) (by omega)
      · exact round_members (by omega)
          (fun isLoose s hs => (ih bound s).1 (by omega) (by omega) isLoose)
          (fun s hs => (ih bound s).2.1 (by omega) (by omega))
          fun s hs => (ih bound s).2.2 (by omega) (by omega) _
      · exact round_items (by omega) stop ((ih bound r).1 (by omega) (by omega) true)
          fun s hs => (ih bound s).2.2 (by omega) (by omega) stop

end ReadM

open ReadM

/-- The rounds of repeated parts come to an end by themselves: whatever is done where they run out
makes no difference, once there are as many as there are tokens, or twice as many for statements. -/
structure RoundsEnd (tokens : List Token) : Prop where
  lines : ∀ (kind : TokenKind) (out : ReadM (List Token)) (n : Nat) (r : Reading),
    r.rest.length < n → (linesRound kind)^[n] out r = lineBlock kind r
  values : ∀ (out : Bool → ReadM (List Token)) (n : Nat) (r : Reading), r.rest.length + 1 < n →
    (commaRound continuesList (consume valueKinds))^[n] out true r =
      ReadM.values (r.rest.length + 1) true r
  arguments : ∀ (out : Bool → ReadM (List Argument)) (n : Nat) (r : Reading),
    r.rest.length + 1 < n → (commaRound startsArgument argument)^[n] out true r = ReadM.arguments r
  statements : ∀ (out : Readers) (n : Nat), 2 * tokens.length + 2 ≤ n →
    (Readers.round^[n] out).items none { rest := tokens } = readAll tokens

theorem roundsEnd (tokens : List Token) : RoundsEnd tokens where
  lines kind out _ _ hn := iterate_linesRound kind out hn
  values out _ _ hn := iterate_valuesRound out hn
  arguments out _ _ hn := iterate_argumentRound out hn
  statements out n hn :=
    (iterate_round out n (2 * tokens.length + 2) { rest := tokens }).2.2 hn (Nat.le_refl _) none

theorem readAll_eq {tokens : List Token} (h : 2 * tokens.length + 2 ≤ bound) :
    items none bound { rest := tokens } = readAll tokens := by
  have hends := (roundsEnd tokens).statements (bounded 0) bound h
  rwa [(iterate_round (bounded 0) bound bound { rest := tokens }).2.2 h h none] at hends

end CommandText
