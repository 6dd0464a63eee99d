import CommandText.Proofs.GivenUp

/-!
# Stalled reading

How often a token can be left alone before it is passed over. A place that calls for a token and
does not get it leaves the token to the places behind it: a value, a bracket, a line end and a
command word may be missed at one token, in this order and once each, and then the line is passed
over or the token fits.
-/

namespace CommandText

open List

variable (tokens : List Token)

/-- Whether a token was called for in vain. -/
def Fault.isRefusal : Fault → Bool
  | unexpected _ _ | unexpectedEnd _ | badToken _ => true
  | _ => false

namespace Reading

/-- How often a token was called for in vain when so many tokens were unread. -/
def missesAt (r : Reading) (unread : Nat) : Nat :=
  r.log.countP fun m => m.unread == unread && m.fault.isRefusal

theorem missesAt_consume (expected : List Expected) {r : Reading} (h : r.halted = false)
    (hanswer : (r.consume expected).1 = none) (unread : Nat) :
    (r.consume expected).2.missesAt unread =
      r.missesAt unread + if unread = r.rest.length then 1 else 0 := by
  have hmiss (fault : Fault) (hfault : fault.isRefusal = true) (line : Nat) (told : Bool) :
      List.countP (fun m => m.unread == unread && m.fault.isRefusal)
        (⟨r.rest.length, fault, line, told⟩ :: r.log) =
      r.missesAt unread + if unread = r.rest.length then 1 else 0 := by
    simp only [countP_cons, hfault, Bool.and_true, beq_iff_eq, missesAt, @eq_comm _ unread]
  have hc := consumed expected r
  generalize r.consume expected = c at hc hanswer ⊢
  cases hc with
  | givenUp h' => simp [h] at h'
  | fits => cases hanswer
  | atEnd | bad => exact hmiss _ rfl _ _
  | @missed t =>
    refine Eq.trans ?_ (hmiss (.unexpected t.lexeme expected) rfl t.line (!r.told))
    simp only [missesAt, fail]
    split
    · rfl
    · simp [report, miss, Fault.isRefusal]

/-- At the next token at most so many misses have been made, and at no token more than four. -/
structure Stalls (n : Nat) (r : Reading) : Prop where
  /-- Nothing has been missed at tokens that come later. -/
  behind : ∀ m ∈ r.log, r.rest.length ≤ m.unread
  few : ∀ unread, 0 < unread → r.missesAt unread ≤ 4
  here : r.next?.isSome = true → r.missesAt r.rest.length ≤ n

namespace Stalls

variable {n k : Nat} {r : Reading}

theorem mono (h : Stalls n r) (hk : n ≤ k) : Stalls k r :=
  ⟨h.behind, h.few, fun hs => Nat.le_trans (h.here hs) hk⟩

theorem quiet (line : Nat) : Stalls 0 (quiet tokens line) :=
  ⟨by simp, fun _ _ => Nat.zero_le _, fun _ => Nat.le_refl _⟩

section

variable (h : Stalls n r)
include h

theorem of_next?_eq_none (hr : r.next? = none) : Stalls k r :=
  ⟨h.behind, h.few, by simp [hr]⟩

theorem of_suffix_tail {s : Reading} (hlog : s.log = r.log) (hrest : s.rest <:+ r.rest.tail) :
    Stalls 0 s := by
  have hle : s.rest.length ≤ r.rest.length :=
    Nat.le_trans hrest.length_le (tail_suffix r.rest).length_le
  refine ⟨fun m hm => ?_, fun unread hk => ?_, fun hs => ?_⟩
  · rw [hlog] at hm
    exact Nat.le_trans hle (h.behind m hm)
  · rw [missesAt, hlog]
    exact h.few unread hk
  · have hlt : s.rest.length < r.rest.length := by
      have hpos : 0 < s.rest.length := by
        rw [length_pos_iff]
        rintro hnil
        simp [next?, hnil] at hs
      have := hrest.length_le
      rw [length_tail] at this
      omega
    refine Nat.le_of_eq (countP_eq_zero.mpr fun m hm => ?_)
    have := h.behind m (hlog ▸ hm)
    simp only [Bool.and_eq_true, beq_iff_eq, not_and]
    omega

theorem advance : Stalls 0 r.advance := by
  rw [Reading.advance]
  split
  · exact h.of_suffix_tail rfl (suffix_refl _)
  · next hnext => exact h.of_next?_eq_none hnext

theorem skipLine : Stalls 0 r.skipLine := by
  cases hr : r.halted with
  | true =>
    rw [Reading.skipLine, if_pos hr]
    exact h.of_next?_eq_none (next?_of_halted hr)
  | false => exact h.of_suffix_tail (log_skipLine r) (rest_skipLine hr)

theorem resync : Stalls n r.resync := by
  rw [Reading.resync]
  split
  · exact h
  · exact h.skipLine.mono (Nat.zero_le n)

theorem looseNote (line : Nat) : Stalls n (r.miss .looseNote line true) := by
  have hmisses (unread : Nat) :
      (r.miss .looseNote line true).missesAt unread = r.missesAt unread := by
    simp [missesAt, miss, Fault.isRefusal]
  refine ⟨fun m hm => ?_, fun unread hk => ?_, fun hs => ?_⟩
  · rcases mem_cons.mp hm with rfl | hm
    · exact Nat.le_refl _
    · exact h.behind m hm
  · rw [hmisses]
    exact h.few unread hk
  · rw [hmisses]
    exact h.here hs

theorem consume (hn : n < 4) (expected : List Expected) :
    Stalls 0 (r.consume expected).2 ∨
    ((r.consume expected).1 = none ∧ Stalls (n + 1) (r.consume expected).2 ∧
      ∃ t, r.next? = some t ∧ (r.consume expected).2.next? = some t ∧
        expected.any (·.fits t) = false ∧ t.kind ≠ .error) := by
  cases hhalted : r.halted with
  | true =>
    left
    rw [(Step.consume expected r).eq_of_halted hhalted]
    exact h.of_next?_eq_none (next?_of_halted hhalted)
  | false =>
    -- one more miss at the next token, if there is one, and no more anywhere else
    have hfew (hanswer : (r.consume expected).1 = none) (unread : Nat) (hk : 0 < unread) :
        (r.consume expected).2.missesAt unread ≤ 4 := by
      have := h.few unread hk
      rw [missesAt_consume expected hhalted hanswer]
      split
      · next hhere =>
        have hsome : r.next?.isSome = true := by
          obtain ⟨t, rest, hrest⟩ := exists_cons_of_length_pos (hhere ▸ hk)
          rw [next?_of_rest hhalted, hrest]
          rfl
        have := hhere ▸ h.here hsome
        omega
      · omega
    have hhere := missesAt_consume expected hhalted
    have hc := consumed expected r
    generalize r.consume expected = c at hc hfew hhere ⊢
    cases hc with
    | givenUp h' => simp [hhalted] at h'
    | fits _ hrest =>
      refine .inl (h.of_suffix_tail rfl ?_)
      rw [hrest]
      exact suffix_refl _
    | atEnd _ hrest =>
      refine .inl ⟨?_, hfew rfl, by simp [next?, report, miss, hrest]⟩
      simp [report, miss, hrest]
    | @bad t rest _ hrest =>
      left
      have hbehind : ∀ m ∈ (⟨r.rest.length, .badToken t.text, t.line, true⟩ : Miss) :: r.log,
          rest.length < m.unread := by
        intro m hm
        rcases mem_cons.mp hm with rfl | hm
        · simp [hrest]
        · have := h.behind m hm
          rw [hrest, length_cons] at this
          omega
      refine ⟨fun m hm => Nat.le_of_lt (hbehind m hm), hfew rfl, fun _ => ?_⟩
      refine Nat.le_of_eq (countP_eq_zero.mpr fun m hm => ?_)
      have := hbehind m hm
      simp only [Bool.and_eq_true, beq_iff_eq, not_and]
      omega
    | @missed t rest _ hrest hfits hkind =>
      have hbehind : ∀ m ∈ ((r.report (.unexpected t.lexeme expected) t.line).fail t.line).log,
          r.rest.length ≤ m.unread := by
        intro m hm
        rw [fail] at hm
        split at hm
        · rcases mem_cons.mp hm with rfl | hm
          · exact Nat.le_refl _
          · exact h.behind m hm
        · rcases mem_cons.mp hm with rfl | hm
          · exact Nat.le_refl _
          · rcases mem_cons.mp hm with rfl | hm
            · exact Nat.le_refl _
            · exact h.behind m hm
      have hnext : r.next? = some t := by rw [next?_of_rest hhalted, hrest, head?_cons]
      have hstalls :
          Stalls (n + 1) ((r.report (.unexpected t.lexeme expected) t.line).fail t.line) := by
        refine ⟨by simpa using hbehind, hfew rfl, fun _ => ?_⟩
        rw [hhere rfl, rest_fail, rest_report, if_pos rfl]
        exact Nat.succ_le_succ (h.here (by simp [hnext]))
      cases hs : ((r.report (.unexpected t.lexeme expected) t.line).fail t.line).halted with
      | true => exact .inl (hstalls.of_next?_eq_none (next?_of_halted hs))
      | false =>
        refine .inr ⟨rfl, hstalls, t, hnext, ?_, hfits, hkind⟩
        rw [next?_of_rest hs, rest_fail, rest_report, hrest, head?_cons]

end

end Stalls

end Reading

namespace ReadM

open Reading

variable {α β : Type} {r : Reading} {n : Nat} {Q P : α → Reading → Prop} {m : ReadM α}

/-! ### Ends of readers -/

/-- What the reader answers, and the state in which it ends. -/
def Ends (m : ReadM α) (r : Reading) (Q : α → Reading → Prop) : Prop := Q (m r).1 (m r).2

theorem Ends.bind {f : α → ReadM β} {Q : β → Reading → Prop} [hm : Moves m] (h : Ends m r P)
    (hf : ∀ a s, s.pending ≤ r.pending → P a s → Ends (f a) s Q) : Ends (m >>= f) r Q :=
  hf _ _ (hm.reaches r).pending_le h

theorem Ends.mono (h : Ends m r P) (hPQ : ∀ a s, P a s → Q a s) : Ends m r Q := hPQ _ _ h

theorem Ends.drop {Q : Unit → Reading → Prop} (h : Ends m r P) (hPQ : ∀ a s, P a s → Q () s) :
    Ends (discard m) r Q := hPQ _ _ h

theorem Ends.get_bind {f : Reading → ReadM α} (h : Ends (f r) r Q) : Ends (get >>= f) r Q := h

theorem Ends.nextIs_bind {p : Token → Bool} {f : Bool → ReadM α}
    (htrue : r.nextIs p = true → Ends (f true) r Q)
    (hfalse : r.nextIs p = false → Ends (f false) r Q) : Ends (ReadM.nextIs p >>= f) r Q := by
  change Ends (f (r.nextIs p)) r Q
  cases h : r.nextIs p with
  | true => exact htrue h
  | false => exact hfalse h

/-- The state in which at most so many misses have been made, whatever the answer. -/
def stalls (n : Nat) : α → Reading → Prop := fun _ r => Stalls n r

theorem Ends.consume (h : Stalls n r) (hn : n < 4) (expected : List Expected) :
    Ends (ReadM.consume expected) r (stalls (n + 1)) := by
  rcases h.consume hn expected with h | ⟨-, h, -⟩
  · exact h.mono (Nat.zero_le _)
  · exact h

theorem Ends.consume_next (h : Stalls n r) (hn : n < 4) (expected : List Expected)
    {p : Token → Bool} (hnext : r.nextIs p = true)
    (hp : ∀ t, p t = true → expected.any (·.fits t) = true) :
    Ends (ReadM.consume expected) r (stalls 0) := by
  rcases h.consume hn expected with h | ⟨-, -, t, ht, -, hfits, -⟩
  · exact h
  · rw [Reading.nextIs, ht, Option.any_some] at hnext
    rw [hp t hnext] at hfits
    cases hfits

theorem Ends.take (h : Stalls n r) : Ends ReadM.take r (stalls 0) := h.advance

theorem Ends.endComment (h : Stalls n r) : Ends endComment r (stalls n) := by
  refine .nextIs_bind (fun _ => ?_) fun _ => h
  exact h.advance.mono (Nat.zero_le _)

theorem Ends.lineEnd (h : Stalls n r) (hn : n < 4) : Ends ReadM.lineEnd r (stalls (n + 1)) := by
  refine (Ends.consume h hn [.kind .newline]).bind fun t s _ hs => ?_
  change Stalls (n + 1) s at hs
  cases t with
  | none => exact hs.resync
  | some t => exact hs

theorem Ends.closeLine (h : Stalls n r) (hn : n < 4) {f : List Comment → ReadM α}
    (hf : ∀ comments s, s.pending ≤ r.pending → Stalls (n + 1) s → Ends (f comments) s Q) :
    Ends (do let comments ← ReadM.endComment; ReadM.lineEnd; f comments) r Q :=
  (Ends.endComment h).bind fun comments _ h₁ hs₁ =>
    (Ends.lineEnd hs₁ hn).bind fun _ s₂ h₂ hs₂ => hf comments s₂ (Nat.le_trans h₂ h₁) hs₂

theorem Ends.wholeLines (kind : TokenKind) (bound : Nat) (h : Stalls n r) (hn : 1 ≤ n) :
    Ends (wholeLines kind bound) r (stalls n) := by
  induction bound generalizing r with
  | zero => exact h
  | succ bound ih =>
    refine .nextIs_bind (fun _ => ?_) fun _ => h
    refine (Ends.take h).bind fun first s₁ _ hs₁ => ?_
    refine ((Ends.consume hs₁ (by omega) [.kind .newline]).drop (Q := stalls n)
      fun _ _ hs => Stalls.mono hs hn).bind fun _ s₂ _ hs₂ => ?_
    exact (ih hs₂).bind fun _ _ _ hs => hs

theorem Ends.lineBlock (kind : TokenKind) (h : Stalls n r) (hn : 1 ≤ n) :
    Ends (lineBlock kind) r (stalls n) :=
  .get_bind (.wholeLines kind _ h hn)

/-! ### Arguments -/

theorem Ends.rounds {begins : Token → Bool} {one : ReadM (Option α)} [Moves one] {k : Nat}
    (hk : k < 3) (hone : ∀ {r : Reading}, Stalls 0 r → Ends one r (stalls k))
    (hbegins : ∀ {r : Reading} {t : Token}, Stalls (k + 1) r → r.next? = some t → begins t = true →
      t.isPunct .comma = false → t.kind ≠ .error → Ends one r (stalls k))
    (bound : Nat) {isFirst : Bool} (h : Stalls (if isFirst then 0 else k) r) :
    Ends (commaRounds begins one bound isFirst) r (stalls k) := by
  have hle : (if isFirst then 0 else k) ≤ k := by split <;> omega
  induction bound generalizing isFirst r with
  | zero => exact h.mono hle
  | succ bound ih =>
    rw [commaRounds_succ]
    refine .nextIs_bind (fun hnext => ?_) fun _ => h.mono hle
    have next {s : Reading} (hs : Ends one s (stalls k)) :
        Ends (partRounds begins one bound) s (stalls k) := by
      refine hs.bind fun a s' _ hs' => ?_
      have hagain : Ends (commaRounds begins one bound false) s' (stalls k) :=
        ih hs' (Nat.le_refl k)
      exact hagain.bind fun _ _ _ hs'' => hs''
    rw [if_pos rfl]
    cases isFirst with
    | true => exact next (hone h)
    | false =>
      -- a comma that is missed leaves a token with which the part begins
      obtain ⟨t, ht, hbegin⟩ := exists_next?_of_nextIs hnext
      have hcomma : Ends (discard (ReadM.consume [.punct .comma])) r fun _ s =>
          Ends one s (stalls k) := by
        rcases Stalls.consume h (by simp; omega) [.punct .comma] with
          hs | ⟨-, hs, t', ht', hnext', hfits, hkind⟩
        · exact hone hs
        · obtain rfl := Option.some.inj (ht.symm.trans ht')
          exact hbegins hs hnext' hbegin (by simpa [Expected.fits] using hfits) hkind
      exact hcomma.bind fun _ s _ hs => next hs

theorem Ends.values (bound : Nat) (h : Stalls 0 r) :
    Ends (ReadM.values bound true) r (stalls 1) := by
  rw [values_eq]
  refine Ends.rounds (by omega) (fun h => .consume h (by omega) valueKinds) ?_ bound h
  intro r t h hnext hbegins hcomma hkind
  have hvalue : r.nextIs Token.isValue = true := by
    rw [nextIs_of_next? hnext]
    simpa [continuesList, hcomma, Token.isKind_eq_false_iff.mpr hkind] using hbegins
  refine (Ends.consume_next h (by omega) valueKinds hvalue fun t ht => ?_).mono
    fun _ _ hs => hs.mono (by omega)
  rw [any_fits_valueKinds, ht]

theorem Ends.argumentValue (h : Stalls 0 r ∨
      (Stalls 3 r ∧ r.nextIs (fun t => t.isValue || t.isPunct .openBracket) = true)) :
    Ends argumentValue r (stalls 2) := by
  have hr : Stalls 3 r := h.elim (fun h => h.mono (by omega)) And.left
  refine .nextIs_bind (fun hopen => ?_) fun hopen => ?_
  · have hbracket := (Ends.consume_next hr (by omega) [.punct .openBracket] hopen
      (by simp [Expected.fits])).drop (Q := stalls 0) fun _ _ hs => hs
    refine hbracket.bind fun _ s₁ _ h₁ => .get_bind ((Ends.values _ h₁).bind fun vs s₂ _ h₂ => ?_)
    exact ((Ends.consume h₂ (by omega) [.punct .closeBracket]).drop (Q := stalls 2)
      fun _ _ hs => hs).bind fun _ _ _ hs => hs
  · refine Ends.bind (P := stalls 1) ?_ fun v s _ hs => Stalls.mono hs (by omega)
    rcases h with h | ⟨h, hnext⟩
    · exact .consume h (by omega) valueKinds
    · obtain ⟨t, ht, hvalue⟩ := exists_next?_of_nextIs hnext
      rw [nextIs_of_next? ht] at hopen
      rw [hopen, Bool.or_false] at hvalue
      have hnext' : r.nextIs Token.isValue = true := (nextIs_of_next? ht _).trans hvalue
      exact (Ends.consume_next h (by omega) valueKinds hnext' fun t ht =>
        (any_fits_valueKinds t).trans ht).mono fun _ _ hs => Stalls.mono hs (by omega)

theorem Ends.argument (h : Stalls 0 r ∨ (Stalls 3 r ∧ r.nextIs (fun t =>
      t.isKind .label || t.isValue || t.isPunct .openBracket) = true)) :
    Ends argument r (stalls 2) := by
  have hr : Stalls 3 r := h.elim (fun h => h.mono (by omega)) And.left
  refine .nextIs_bind (fun _ => ?_) fun hlabel => ?_
  · refine (Ends.take hr).bind fun label s _ hs => ?_
    exact (Ends.argumentValue (.inl hs)).bind fun _ _ _ hs => hs
  · refine (Ends.argumentValue (h.imp_right fun ⟨h, hnext⟩ => ⟨h, ?_⟩)).bind fun _ _ _ hs => hs
    obtain ⟨t, ht, hbegins⟩ := exists_next?_of_nextIs hnext
    rw [nextIs_of_next? ht] at hlabel ⊢
    simpa [hlabel] using hbegins

theorem Ends.arguments (h : Stalls 0 r) : Ends arguments r (stalls 2) := by
  refine .get_bind ?_
  rw [argumentRounds_eq]
  refine Ends.rounds (by omega) (fun h => .argument (.inl h)) ?_ _ h
  intro r t h hnext hbegins hcomma hkind
  refine .argument (.inr ⟨h, ?_⟩)
  rw [nextIs_of_next? hnext]
  simpa [startsArgument, hcomma, Token.isKind_eq_false_iff.mpr hkind, or_comm, or_assoc]
    using hbegins

/-! ### Blocks and lists -/

/-- The reader stops with the text, or at a token of some kind. -/
def stops (stop : Token → Bool) : α → Reading → Prop :=
  fun _ s => Stalls 3 s ∧ s.nextIs (fun t => !stop t) = false

theorem Ends.close {close : Punct} (h : Stalls 3 r ∧ r.nextIs (fun t => !t.isPunct close) = false) :
    Ends (Functor.discard (ReadM.consume [.punct close])) r (stalls 0) := by
  rcases h.1.consume (by omega) [.punct close] with hs | ⟨-, -, t, ht, -, hfits, -⟩
  · exact hs
  · have hstop := h.2
    rw [nextIs_of_next? ht] at hstop
    simp [Expected.fits] at hfits
    simp [hfits] at hstop

theorem Ends.block {members : ReadM Body} [Moves members] (h : Stalls n r) (hn : n < 4)
    (hopen : r.nextIs (·.isPunct .openBrace) = true)
    (hm : ∀ s, s.pending ≤ r.pending → Stalls 3 s →
      Ends members s (stops (·.isPunct .closeBrace))) :
    Ends (ReadM.block members) r (stalls 0) := by
  have hbrace := (Ends.consume_next h hn [.punct .openBrace] hopen (by simp [Expected.fits])).drop
    (Q := stalls 0) fun _ _ hs => hs
  refine hbrace.bind fun _ s₁ h₁ hs₁ => .closeLine hs₁ (by omega) fun header s₂ h₂ hs₂ => ?_
  refine (hm s₂ (by omega) (hs₂.mono (by omega))).bind fun b s₃ _ hs₃ => ?_
  exact (Ends.close hs₃).bind fun _ _ _ hs => hs

theorem Ends.elementList {items : ReadM (List Entry)} [Moves items] (h : Stalls n r) (hn : n < 4)
    (hopen : r.nextIs (·.isPunct .openBracket) = true)
    (hi : ∀ s, s.pending ≤ r.pending → Stalls 3 s →
      Ends items s (stops (·.isPunct .closeBracket))) :
    Ends (elementList items) r (stalls 1) := by
  have hbracket :=
    (Ends.consume_next h hn [.punct .openBracket] hopen (by simp [Expected.fits])).drop
    (Q := stalls 0) fun _ _ hs => hs
  refine hbracket.bind fun _ s₁ h₁ hs₁ => .closeLine hs₁ (by omega) fun header s₂ h₂ hs₂ => ?_
  refine (hi s₂ (by omega) (hs₂.mono (by omega))).bind fun b s₃ _ hs₃ => ?_
  refine (Ends.close hs₃).bind fun _ _ _ hs => .closeLine hs (by omega) fun _ _ _ hs => hs

theorem Ends.roleBody {items statement : ReadM (List Entry)} [Moves items] [Moves statement]
    (h : Stalls 0 r)
    (hi : ∀ s, s.pending ≤ r.pending → Stalls 3 s → Ends items s (stops (·.isPunct .closeBracket)))
    (hs : ∀ s, s.pending ≤ r.pending → Stalls 1 s → Ends statement s (stalls 3)) :
    Ends (roleBody items statement) r (stalls 3) := by
  have next (header : List Comment) {s : Reading} (h₁ : s.pending ≤ r.pending) (hs₁ : Stalls 1 s) :
      Ends (do return (false, ← statement, header)) s (stalls 3) :=
    (hs s h₁ hs₁).bind fun _ _ _ hs => hs
  refine .nextIs_bind (fun hopen => ?_) fun _ => .nextIs_bind (fun _ => ?_) fun _ => ?_
  · exact (Ends.elementList h (by omega) hopen hi).bind fun _ _ _ hs => Stalls.mono hs (by omega)
  · exact Ends.closeLine h (by omega) fun header s h₁ hs₁ => next header h₁ hs₁
  · exact next [] (Nat.le_refl _) (h.mono (by omega))

/-! ### Statements -/

theorem Ends.looseLines {comments notes : List Token} (h : Stalls 3 r) :
    Ends (looseLines comments notes) r (stalls 3) := by
  unfold ReadM.looseLines
  cases notes with
  | cons note notes =>
    simp only [head?_cons, isEmpty_cons, Bool.and_false]
    exact h.looseNote note.line
  | nil =>
    cases comments with
    | cons comment comments => exact h
    | nil =>
      refine ((Ends.consume h (by omega) [.kind .identifier]).drop (Q := stalls 4)
        fun _ _ hs => hs).bind fun _ s _ hs => ?_
      exact (Stalls.skipLine hs).mono (by omega)

theorem Ends.command {members : ReadM Body} [Moves members]
    (h : Stalls 2 r ∨ (Stalls 3 r ∧ r.nextIs (·.isKind .identifier) = true))
    (hm : ∀ s, s.pending < r.pending → Stalls 3 s → Ends members s (stops (·.isPunct .closeBrace)))
    (above notes : List Token) : Ends (ReadM.command members above notes) r (stalls 3) := by
  have hword : Ends (ReadM.consume [.kind .identifier]) r fun word s =>
      Stalls (if word.isSome then 0 else 3) s ∧ (word.isSome = true → s.pending < r.pending) := by
    refine ⟨?_, fun hsome => pending_consume (Option.some_get hsome).symm⟩
    have hconsume : Stalls 0 (r.consume [.kind .identifier]).2 ∨
        ((r.consume [.kind .identifier]).1 = none ∧
          Stalls 3 (r.consume [.kind .identifier]).2) := by
      rcases h with h | ⟨h, hnext⟩
      · exact (h.consume (by omega) _).imp_right fun h => ⟨h.1, h.2.1⟩
      · exact .inl
          (Ends.consume_next h (by omega) [.kind .identifier] hnext (by simp [Expected.fits]))
    rcases hconsume with hs | ⟨hnone, hs⟩
    · exact hs.mono (Nat.zero_le _)
    · rw [show (ReadM.consume [.kind .identifier] r).1 = none from hnone]
      exact hs
  refine hword.bind fun word s _ hs => ?_
  cases word with
  | none => exact hs.1.resync
  | some word =>
    have hlt := hs.2 rfl
    refine (Ends.arguments hs.1).bind fun args s₁ h₁ hs₁ => ?_
    have ends (body : List Entry) (inner : List Comment) {s : Reading} (hs : Stalls 2 s) :
        Ends (do
          let footer ← ReadM.endComment
          ReadM.lineEnd
          return [Entry.statement word args body (if (← get).halted then none
            else some ⟨commentOf .above above ++ inner ++ footer, noteOf notes⟩)]) s (stalls 3) :=
      .closeLine hs (by omega) fun _ _ _ hs => hs
    refine .nextIs_bind (fun hopen => ?_) fun _ => ends [] [] hs₁
    refine (Ends.block hs₁ (by omega) hopen fun s₂ h₂ hs₂ => hm s₂ (by omega) hs₂).bind
      fun b s₂ _ hs₂ => ?_
    exact ends b.1 b.2 (Stalls.mono hs₂ (by omega))

section Succ

variable {bound : Nat}

theorem Ends.statement_succ (isLoose : Bool) (h : Stalls (if isLoose then 3 else 1) r)
    (hm : ∀ s, s.pending < r.pending → Stalls 3 s →
      Ends (ReadM.members bound) s (stops (·.isPunct .closeBrace))) :
    Ends (statement (bound + 1) isLoose) r (stalls 3) := by
  have hone : 1 ≤ if isLoose then 3 else 1 := by split <;> omega
  refine (Ends.lineBlock .comment h hone).bind fun comments s₁ h₁ hs₁ =>
    (Ends.lineBlock .note hs₁ hone).bind fun notes s₂ h₂ hs₂ => .get_bind ?_
  split
  · exact Stalls.mono hs₂ (by split <;> omega)
  · refine .nextIs_bind (fun hnext => ?_) fun hnext => ?_
    · have h₃ : Stalls 3 s₂ := Stalls.mono hs₂ (by split <;> omega)
      exact .command (.inr ⟨h₃, hnext⟩) (fun s hs => hm s (by omega)) comments notes
    · cases isLoose with
      | true => exact .looseLines hs₂
      | false =>
        have h₂ : Stalls 2 s₂ := Stalls.mono hs₂ (by simp)
        exact .command (.inl h₂) (fun s hs => hm s (by omega)) comments notes

theorem Ends.statement_lt (hbound : bound ≠ 0) (hpos : 0 < r.pending)
    (h : Ends (statement bound true) r (stalls 3)) :
    Ends (statement bound true) r fun _ s => Stalls 3 s ∧ s.pending < r.pending := by
  obtain ⟨bound, rfl⟩ := Nat.exists_eq_add_one_of_ne_zero hbound
  exact ⟨h, pending_statement_lt bound hpos⟩

theorem Ends.members_succ (hbound : bound ≠ 0) (h : Stalls 3 r)
    (hs : ∀ s, s.pending ≤ r.pending → ∀ isLoose, Stalls (if isLoose then 3 else 1) s →
      Ends (statement bound isLoose) s (stalls 3))
    (hm : ∀ s, s.pending < r.pending → Stalls 3 s →
      Ends (ReadM.members bound) s (stops (·.isPunct .closeBrace)))
    (hi : ∀ s, s.pending < r.pending → Stalls 3 s →
      Ends (ReadM.items (some .closeBracket) bound) s (stops (·.isPunct .closeBracket))) :
    Ends (ReadM.members (bound + 1)) r (stops (·.isPunct .closeBrace)) := by
  refine .nextIs_bind (fun hnext => .nextIs_bind (fun _ => ?_) fun _ => ?_) fun hstop => ⟨h, hstop⟩
  · have hlt : r.advance.pending < r.pending := pending_advance (pending_pos_of_nextIs hnext)
    have htake : Ends ReadM.take r fun _ s => Stalls 0 s ∧ s.pending < r.pending := ⟨h.advance, hlt⟩
    refine htake.bind fun label s₁ _ hs₁ => ?_
    have hrole := Ends.roleBody hs₁.1 (fun s h₂ => hi s (by omega))
      fun s h₂ hs₂ => hs s (by omega) false hs₂
    refine hrole.bind fun b s₂ h₂ hs₂ => ?_
    exact (hm s₂ (by omega) hs₂).bind fun _ _ _ hs => hs
  · refine (Ends.statement_lt hbound (pending_pos_of_nextIs hnext)
      (hs r (Nat.le_refl _) true h)).bind fun es s₁ _ hs₁ => ?_
    exact (hm s₁ hs₁.2 hs₁.1).bind fun _ _ _ hs => hs

theorem Ends.items_succ {stop : Option Punct} (hbound : bound ≠ 0) (h : Stalls 3 r)
    (hs : Ends (statement bound true) r (stalls 3))
    (hi : ∀ s, s.pending < r.pending → Stalls 3 s →
      Ends (ReadM.items stop bound) s (stops fun t => stop.any t.isPunct)) :
    Ends (ReadM.items stop (bound + 1)) r (stops fun t => stop.any t.isPunct) := by
  refine .nextIs_bind (fun hnext => ?_) fun hstop => ⟨h, hstop⟩
  refine (Ends.statement_lt hbound (pending_pos_of_nextIs hnext) hs).bind fun es s₁ _ hs₁ => ?_
  exact (hi s₁ hs₁.2 hs₁.1).bind fun _ _ _ hs => hs

end Succ

theorem ends_recursive (bound : Nat) (r : Reading) :
    (2 * r.pending < bound → ∀ isLoose, Stalls (if isLoose then 3 else 1) r →
      Ends (statement bound isLoose) r (stalls 3)) ∧
    (2 * r.pending + 1 < bound → Stalls 3 r →
      Ends (members bound) r (stops (·.isPunct .closeBrace))) ∧
    (2 * r.pending + 1 < bound → Stalls 3 r → ∀ stop,
      Ends (items stop bound) r (stops fun t => stop.any t.isPunct)) := by
  induction bound generalizing r with
  | zero => exact ⟨by omega, by omega, by omega⟩
  | succ bound ih =>
    refine ⟨fun hb isLoose h => ?_, fun hb h => ?_, fun hb h stop => ?_⟩
    · exact .statement_succ isLoose h fun s hs h => (ih s).2.1 (by omega) h
    · exact .members_succ (by omega) h (fun s hs isLoose h => (ih s).1 (by omega) isLoose h)
        (fun s hs h => (ih s).2.1 (by omega) h) fun s hs h => (ih s).2.2 (by omega) h _
    · exact .items_succ (by omega) h ((ih r).1 (by omega) true h) fun s hs h =>
        (ih s).2.2 (by omega) h stop

end ReadM

open ReadM Reading

theorem missesAt_readAll {unread : Nat} (h : 0 < unread) :
    (readAll tokens).2.missesAt unread ≤ 4 := by
  have hends := (ends_recursive (2 * tokens.length + 2) (quiet tokens 1)).2.2 (Nat.lt_succ_self _)
    ((Stalls.quiet tokens 1).mono (Nat.zero_le _)) none
  exact hends.1.few unread h

theorem readAll_ends : (readAll tokens).2.rest = [] ∨ (readAll tokens).2.halted = true := by
  have hends := (ends_recursive (2 * tokens.length + 2) (quiet tokens 1)).2.2 (Nat.lt_succ_self _)
    ((Stalls.quiet tokens 1).mono (Nat.zero_le _)) none
  have hstop : (readAll tokens).2.nextIs (fun _ => true) = false := hends.2
  cases hhalted : (readAll tokens).2.halted with
  | true => exact .inr rfl
  | false =>
    rw [Reading.nextIs, next?_of_rest hhalted] at hstop
    cases hrest : (readAll tokens).2.rest with
    | nil => exact .inl rfl
    | cons t rest => simp [hrest] at hstop

end CommandText
