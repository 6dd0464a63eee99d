import CommandText.Proofs.ExactReaders

/-!
# Giving up

Once reading has been given up, the state never changes again: no token is passed over, nothing is
logged, and every reader gives an empty answer. The miss by which it was given up therefore stays
the latest one, and its problem the last.

The tokens that can still be read are `pending`. No reader makes them more, and a statement that may
consist of loose lines makes them fewer whenever there are some: either it takes a token or reading
is given up.
-/

namespace CommandText

open List

variable {t : Token} (r : Reading) {expected : List Expected}

namespace Reading

/-! ### Taking a token -/

/-- What taking a token comes to: the answer, and the state behind it. -/
inductive Consumed (expected : List Expected) (r : Reading) : Option Token × Reading → Prop
  | givenUp (h : r.halted = true) : Consumed expected r (none, r)
  | atEnd (h : r.halted = false) (hrest : r.rest = []) :
      Consumed expected r (none, r.report (.unexpectedEnd expected) r.line)
  | fits {t : Token} {rest : List Token} (h : r.halted = false) (hrest : r.rest = t :: rest)
      (hfits : expected.any (·.fits t) = true) :
      Consumed expected r
        (some t, { r with rest := rest, line := t.line, told := false, failures := 0 })
  | bad {t : Token} {rest : List Token} (h : r.halted = false) (hrest : r.rest = t :: rest)
      (hfits : expected.any (·.fits t) = false) (hkind : t.kind = .error) :
      Consumed expected r
        (none, { r.miss (.badToken t.text) t.line true with
          rest := rest, line := t.line, told := true, failures := 0 })
  | missed {t : Token} {rest : List Token} (h : r.halted = false) (hrest : r.rest = t :: rest)
      (hfits : expected.any (·.fits t) = false) (hkind : t.kind ≠ .error) :
      Consumed expected r (none, (r.report (.unexpected t.lexeme expected) t.line).fail t.line)

theorem next?_of_halted {r : Reading} (h : r.halted = true) : r.next? = none := by
  rw [next?, h, if_pos rfl]

theorem next?_of_rest {r : Reading} (h : r.halted = false) : r.next? = r.rest.head? := by
  rw [next?, h, if_neg Bool.false_ne_true]

theorem nextIs_of_halted {r : Reading} (h : r.halted = true) (p : Token → Bool) :
    r.nextIs p = false := by
  rw [nextIs, next?_of_halted h, Option.any_none]

theorem nextIs_of_next? {r : Reading} (h : r.next? = some t) (p : Token → Bool) :
    r.nextIs p = p t := by
  rw [nextIs, h, Option.any_some]

theorem exists_next?_of_nextIs {r : Reading} {p : Token → Bool} (h : r.nextIs p = true) :
    ∃ t, r.next? = some t ∧ p t = true := by
  rwa [nextIs, Option.any_eq_true] at h

theorem consumed (expected : List Expected) (r : Reading) :
    Consumed expected r (r.consume expected) := by
  cases h : r.halted with
  | true =>
    rw [consume, next?_of_halted h]
    simp only [h, if_true]
    exact .givenUp h
  | false =>
    cases hrest : r.rest with
    | nil =>
      rw [consume, next?_of_rest h, hrest, head?_nil]
      simp only [h, Bool.false_eq_true, if_false]
      exact .atEnd h hrest
    | cons t rest =>
      have hnext : r.next? = some t := by rw [next?_of_rest h, hrest, head?_cons]
      have hadvance : r.advance = { r with rest := rest, line := t.line } := by
        rw [advance, hnext, hrest, tail_cons]
      rw [consume, hnext]
      cases hfits : expected.any (·.fits t) with
      | true =>
        simp only [hfits, if_true, hadvance]
        exact .fits h hrest hfits
      | false =>
        simp only [hfits, Bool.false_eq_true, if_false]
        split
        · next text htext =>
          have hbad : (r.miss (.badToken text) t.line true).advance =
              { r.miss (.badToken text) t.line true with rest := rest, line := t.line } := by
            rw [advance, next?_of_rest (show (r.miss _ _ _).halted = false from h)]
            simp only [miss, hrest, head?_cons, tail_cons]
          rw [hbad]
          have hkind : t.kind = .error := by rw [Token.kind, htext, Lexeme.kind]
          have hword : t.text = text := by rw [Token.text, htext, Lexeme.text]
          exact hword ▸ .bad h hrest hfits hkind
        · next hother =>
          refine .missed h hrest hfits fun hkind => ?_
          cases hlexeme : t.lexeme with
          | error text => exact hother text hlexeme
          | _ => simp [Token.kind, hlexeme, Lexeme.kind] at hkind

theorem consume_of_fits (expected : List Expected) {r : Reading} {rest : List Token}
    (h : r.halted = false) (hrest : r.rest = t :: rest) (hfits : expected.any (·.fits t) = true) :
    r.consume expected =
      (some t, { r with rest := rest, line := t.line, told := false, failures := 0 }) := by
  have hc := consumed expected r
  generalize r.consume expected = c at hc ⊢
  cases hc with
  | fits _ hrest' =>
    obtain ⟨rfl, rfl⟩ := cons.inj (hrest.symm.trans hrest')
    rfl
  | givenUp h' => simp [h] at h'
  | atEnd _ hrest' => simp [hrest] at hrest'
  | bad _ hrest' hfits' | missed _ hrest' hfits' =>
    obtain ⟨rfl, rfl⟩ := cons.inj (hrest.symm.trans hrest')
    simp [hfits] at hfits'

theorem halted_of_consume {r s : Reading} (h : r.consume expected = (some t, s)) :
    r.halted = false ∧ s.halted = false := by
  have hc := consumed expected r
  rw [h] at hc
  cases hc with
  | fits hr => exact ⟨hr, hr⟩

/-! ### The state stays as it is -/

variable {r s : Reading}

theorem Step.eq_of_halted (h : Step r s) (hr : r.halted = true) : s = r := by
  cases h with
  | advance => rw [Reading.advance, next?_of_halted hr]
  | skipLine => rw [Reading.skipLine, if_pos hr]
  | looseNote _ _ h => simp [hr] at h
  | consume expected =>
    have hc := consumed expected r
    generalize r.consume expected = c at hc ⊢
    cases hc with
    | givenUp => rfl
    | atEnd h | fits h | bad h | missed h => simp [hr] at h

theorem Reaches.eq_of_halted (h : r.Reaches s) (hr : r.halted = true) : s = r := by
  induction h with
  | refl => rfl
  | tail _ hstep ih =>
    subst ih
    exact hstep.eq_of_halted hr

theorem Reaches.halted_eq_false (h : r.Reaches s) (hs : s.halted = false) : r.halted = false := by
  cases hr : r.halted with
  | false => rfl
  | true => rw [← hs, h.eq_of_halted hr, hr]

/-- Where reading has been given up, the latest miss says so. -/
def LastIsStuck (r : Reading) : Prop :=
  r.halted = true → ∃ m log, r.log = m :: log ∧ m.fault = .stuck ∧ m.told = true

theorem lastIsStuck_fail (hr : r.halted = false) (line : Nat) : (r.fail line).LastIsStuck := by
  intro h
  rw [fail] at h ⊢
  split at h
  · simp [hr] at h
  · next hfull =>
    rw [if_neg hfull]
    exact ⟨_, _, rfl, rfl, rfl⟩

theorem Step.lastIsStuck (h : Step r s) (hr : r.LastIsStuck) : s.LastIsStuck := by
  cases hhalted : r.halted with
  | true => exact h.eq_of_halted hhalted ▸ hr
  | false =>
    -- only a token that is left alone can end it
    have unhalted {s : Reading} (hs : s.halted = false) : s.LastIsStuck := by
      intro h
      rw [hs] at h
      cases h
    cases h with
    | advance =>
      refine unhalted ?_
      rw [Reading.advance]
      split <;> exact hhalted
    | skipLine =>
      refine unhalted ?_
      rw [Reading.skipLine, if_neg (by simp [hhalted])]
      simp only
      split <;> exact hhalted
    | looseNote => exact unhalted hhalted
    | consume expected =>
      have hc := consumed expected r
      generalize r.consume expected = c at hc ⊢
      cases hc with
      | givenUp h => simp [hhalted] at h
      | atEnd | fits | bad => exact unhalted hhalted
      | missed => exact lastIsStuck_fail (r := r.report _ _) hhalted _

theorem Reaches.lastIsStuck (h : r.Reaches s) (hr : r.LastIsStuck) : s.LastIsStuck := by
  induction h with
  | refl => exact hr
  | tail _ hstep ih => exact hstep.lastIsStuck ih

theorem Reaches.getLast?_problems {tokens : List Token} {line : Nat}
    (h : (quiet tokens line).Reaches s) (hs : s.halted = true) :
    ∃ line, s.problems.getLast? = some ⟨.stuck, line, none⟩ := by
  have hquiet : (quiet tokens line).LastIsStuck := by
    intro h
    cases h
  obtain ⟨m, log, hlog, hfault, htold⟩ := h.lastIsStuck hquiet hs
  exact ⟨m.line, by simp [problems, hlog, htold, hfault]⟩

/-! ### Tokens that can still be read -/

/-- How many tokens can still be read. -/
def pending (r : Reading) : Nat := if r.halted then 0 else r.rest.length

theorem pending_of_halted (h : r.halted = true) : r.pending = 0 := by rw [pending, if_pos h]

theorem pending_of_not_halted (h : r.halted = false) : r.pending = r.rest.length := by
  rw [pending, h, if_neg Bool.false_ne_true]

theorem pending_le_length : r.pending ≤ r.rest.length := by
  rw [pending]
  split
  · exact Nat.zero_le _
  · exact Nat.le_refl _

theorem advance_of_rest {rest : List Token} (h : r.halted = false) (hrest : r.rest = t :: rest) :
    r.advance = { r with rest := rest, line := t.line } := by
  rw [advance, next?_of_rest h, hrest, head?_cons, tail_cons]

theorem exists_rest_of_pending_pos (h : 0 < r.pending) :
    r.halted = false ∧ ∃ t rest, r.rest = t :: rest := by
  cases hr : r.halted with
  | true => simp [pending_of_halted hr] at h
  | false =>
    rw [pending_of_not_halted hr] at h
    exact ⟨rfl, exists_cons_of_length_pos h⟩

theorem pending_pos_of_nextIs {p : Token → Bool} (h : r.nextIs p = true) : 0 < r.pending := by
  cases hr : r.halted with
  | true => simp [nextIs_of_halted hr] at h
  | false =>
    rw [pending_of_not_halted hr]
    cases hrest : r.rest with
    | nil => simp [nextIs, next?_of_rest hr, hrest] at h
    | cons t rest => simp

@[simp] theorem rest_report (fault : Fault) (line : Nat) :
    (r.report fault line).rest = r.rest := rfl

@[simp] theorem rest_fail (line : Nat) : (r.fail line).rest = r.rest := by
  rw [fail]
  split <;> rfl

theorem pending_le_of_suffix (hr : r.halted = false) (h : s.rest <:+ r.rest) :
    s.pending ≤ r.pending := by
  rw [pending_of_not_halted hr]
  exact Nat.le_trans s.pending_le_length h.length_le

theorem pending_lt_of_suffix_tail (hr : 0 < r.pending) (h : s.rest <:+ r.rest.tail) :
    s.pending < r.pending := by
  obtain ⟨hhalted, t, rest, hrest⟩ := exists_rest_of_pending_pos hr
  rw [hrest, tail_cons] at h
  have hlength := h.length_le
  have hpending := s.pending_le_length
  rw [pending_of_not_halted hhalted, hrest, length_cons]
  omega

theorem rest_skipLine (h : r.halted = false) : r.skipLine.rest <:+ r.rest.tail := by
  rw [skipLine, h, if_neg Bool.false_ne_true]
  simp only
  split
  · next newline rest hdrop =>
    cases hrest : r.rest with
    | nil => simp [hrest] at hdrop
    | cons t tail =>
      rw [hrest, dropWhile_cons] at hdrop
      split at hdrop
      · exact (suffix_cons newline rest).trans (hdrop ▸ dropWhile_suffix _)
      · exact (cons.inj hdrop).2 ▸ suffix_refl _
  · exact nil_suffix

theorem Step.rest_suffix (h : Step r s) (hr : r.halted = false) : s.rest <:+ r.rest := by
  cases h with
  | advance =>
    rw [Reading.advance]
    split
    · exact tail_suffix _
    · exact suffix_refl _
  | skipLine => exact (rest_skipLine hr).trans (tail_suffix _)
  | looseNote => exact suffix_refl _
  | consume expected =>
    have hc := consumed expected r
    generalize r.consume expected = c at hc ⊢
    cases hc with
    | givenUp | atEnd => exact suffix_refl _
    | fits _ hrest | bad _ hrest => exact hrest ▸ suffix_cons _ _
    | missed =>
      rw [rest_fail]
      exact suffix_refl _

theorem Step.pending_le (h : Step r s) : s.pending ≤ r.pending := by
  cases hr : r.halted with
  | true => exact h.eq_of_halted hr ▸ Nat.le_refl _
  | false => exact pending_le_of_suffix hr (h.rest_suffix hr)

theorem Reaches.pending_le (h : r.Reaches s) : s.pending ≤ r.pending := by
  induction h with
  | refl => exact Nat.le_refl _
  | tail _ hstep ih => exact Nat.le_trans hstep.pending_le ih

theorem pending_advance (h : 0 < r.pending) : r.advance.pending < r.pending := by
  obtain ⟨hhalted, t, rest, hrest⟩ := exists_rest_of_pending_pos h
  refine pending_lt_of_suffix_tail h ?_
  rw [advance_of_rest hhalted hrest, hrest]
  exact suffix_refl _

theorem pending_consume (h : (r.consume expected).1 = some t) :
    (r.consume expected).2.pending < r.pending := by
  have hc := consumed expected r
  generalize r.consume expected = c at hc h ⊢
  cases hc with
  | fits hr hrest =>
    refine pending_lt_of_suffix_tail ?_ (hrest ▸ suffix_refl _)
    rw [pending_of_not_halted hr, hrest]
    exact Nat.succ_pos _
  | givenUp | atEnd | bad | missed => cases h

end Reading

namespace ReadM

open Reading

variable {α : Type}

theorem nextIs_bind_apply (p : Token → Bool) (f : Bool → ReadM α) (r : Reading) :
    (nextIs p >>= f) r = f (r.nextIs p) r := rfl

theorem unlessHalted_apply (m n : ReadM α) (r : Reading) :
    (do if (← get).halted then m else n : ReadM α) r = if r.halted then m r else n r := by
  change (if r.halted then m else n : ReadM α) r = _
  split <;> rfl

/-! ### Readers that have been given up -/

section Halted

variable {r : Reading} (h : r.halted = true)

include h

theorem members_of_halted (bound : Nat) : members bound r = (([], []), r) := by
  cases bound with
  | zero => rfl
  | succ bound =>
    rw [ReadM.members]
    change
      (if !(r.nextIs fun t => !t.isPunct .closeBrace) then pure ([], []) else _ : ReadM Body) r = _
    rw [nextIs_of_halted h]
    rfl

theorem items_of_halted (stop : Option Punct) (bound : Nat) : items stop bound r = ([], r) := by
  cases bound with
  | zero => rfl
  | succ bound =>
    rw [ReadM.items]
    change
      (if !(r.nextIs fun t => !stop.any t.isPunct) then pure [] else _ : ReadM (List Entry)) r = _
    rw [nextIs_of_halted h]
    rfl

end Halted

/-! ### Progress -/

theorem lineBlock_cases (kind : TokenKind) (r : Reading) :
    lineBlock kind r = ([], r) ∨ (lineBlock kind r).2.pending < r.pending := by
  change wholeLines kind r.rest.length r = ([], r) ∨ (wholeLines kind r.rest.length r).2.pending < _
  cases r.rest.length with
  | zero => exact .inl rfl
  | succ bound =>
    cases hnext : r.nextIs (·.isKind kind) with
    | false =>
      left
      change (if r.nextIs (·.isKind kind) then _ else pure [] : ReadM (List Token)) r = _
      rw [hnext]
      rfl
    | true =>
      right
      have hpos := pending_pos_of_nextIs hnext
      have hrest (m : ReadM (List Token)) [Moves m] : (m r.advance).2.pending < r.pending :=
        Nat.lt_of_le_of_lt (Moves.reaches r.advance).pending_le (pending_advance hpos)
      change
        ((if r.nextIs (·.isKind kind) then _ else pure [] : ReadM (List Token)) r).2.pending < _
      rw [hnext, if_pos rfl]
      exact hrest (do
        discard (consume [.kind .newline])
        return r.next?.toList ++ (← wholeLines kind bound))

theorem pending_looseLines_lt {r : Reading} (h : 0 < r.pending) :
    (looseLines [] [] r).2.pending < r.pending := by
  change (r.consume [.kind .identifier]).2.skipLine.pending < r.pending
  have hconsume : (r.consume [.kind .identifier]).2.pending ≤ r.pending :=
    (Step.consume _ r).pending_le
  rcases Nat.eq_zero_or_pos (r.consume [.kind .identifier]).2.pending with hzero | hpos
  · have := (Step.skipLine (r.consume [.kind .identifier]).2).pending_le
    omega
  · have := pending_lt_of_suffix_tail hpos (rest_skipLine (exists_rest_of_pending_pos hpos).1)
    omega

theorem pending_command_lt {members : ReadM Body} [Moves members] (above notes : List Token)
    {r : Reading} (h : r.nextIs (·.isKind .identifier) = true) :
    (command members above notes r).2.pending < r.pending := by
  obtain ⟨hhalted, word, rest, hrest⟩ := exists_rest_of_pending_pos (pending_pos_of_nextIs h)
  have hword : word.isKind .identifier = true := by
    rwa [Reading.nextIs, next?_of_rest hhalted, hrest] at h
  have hconsume :=
    consume_of_fits [.kind .identifier] hhalted hrest (by simpa [Expected.fits] using hword)
  have hlt := pending_consume (congrArg Prod.fst hconsume)
  rw [hconsume] at hlt
  rw [ReadM.command, bind_apply, show ReadM.consume [.kind .identifier] r = _ from hconsume]
  exact Nat.lt_of_le_of_lt (Moves.reaches _).pending_le hlt

theorem pending_statement_lt (bound : Nat) {r : Reading} (h : 0 < r.pending) :
    (statement (bound + 1) true r).2.pending < r.pending := by
  rw [ReadM.statement, bind_apply]
  rcases lineBlock_cases .comment r with hc | hc
  · rw [hc, bind_apply]
    rcases lineBlock_cases .note r with hn | hn
    · rw [hn, unlessHalted_apply, (exists_rest_of_pending_pos h).1, if_neg Bool.false_ne_true,
        nextIs_bind_apply]
      cases hword : r.nextIs (·.isKind .identifier) with
      | true => exact pending_command_lt [] [] hword
      | false => exact pending_looseLines_lt h
    · exact Nat.lt_of_le_of_lt (Moves.reaches _).pending_le hn
  · exact Nat.lt_of_le_of_lt (Moves.reaches _).pending_le hc

end ReadM

end CommandText
