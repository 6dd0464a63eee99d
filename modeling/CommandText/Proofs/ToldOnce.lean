import CommandText.Proofs.LiveReading

/-!
# One problem at a time

While nothing fits, only the first of the misses becomes a problem. The flag that sees to this is
taken back by a token that fits and set again by a piece of text that is no token, while tokens are
also passed over without being looked at. So it has to be shown that the flag is never taken back
between two calls at the same token. Reading is given up after a hundred misses in a row, and those
may come from many tokens; that the problem by which it is given up stands alone at its token
follows because at one token there are only few.
-/

namespace CommandText

open List Fault

variable {fault : Fault} {t : Token} {expected : List Expected}

/-- Whether a miss was made by calling for a token, and not by a note above no command. -/
def Miss.isCall (m : Miss) : Bool := m.fault != .looseNote

/-- The token that comes next when so many tokens are unread. -/
def tokenAt (tokens : List Token) (unread : Nat) : Option Token :=
  (tokens.drop (tokens.length - unread)).head?

theorem tokenAt_of_suffix {tokens rest : List Token} (h : rest <:+ tokens) :
    tokenAt tokens rest.length = rest.head? := by
  obtain ⟨front, rfl⟩ := h
  rw [tokenAt, length_append, Nat.add_sub_cancel, drop_left]

namespace Reading

/-- The misses by calls when so many tokens were unread, the latest first. -/
def callsAt (r : Reading) (unread : Nat) : List Miss :=
  r.log.filter fun m => m.unread == unread && m.isCall

/-- Those of them that became problems. -/
def toldAt (r : Reading) (unread : Nat) : List Miss := (r.callsAt unread).filter (·.told)

theorem mem_callsAt {r : Reading} {unread : Nat} {m : Miss} :
    m ∈ r.callsAt unread ↔ m ∈ r.log ∧ m.unread = unread ∧ m.isCall = true := by
  simp [callsAt]

/-- What has been told so far. The flag is set and the counter is no greater than the number of
misses where something has been told at the next token. -/
structure Tells (tokens : List Token) (r : Reading) : Prop where
  suffix : r.rest <:+ tokens
  /-- Nothing has been missed at tokens that come later. -/
  behind : ∀ m ∈ r.log, r.rest.length ≤ m.unread
  fresh : r.told = false → r.failures = 0
  here : r.halted = false → r.toldAt r.rest.length ≠ [] →
    r.told = true ∧ r.failures ≤ r.missesAt r.rest.length
  once : ∀ unread, (r.toldAt unread).length ≤ 1
  /-- A piece of text that is no token is missed once, with a problem, and passed over. -/
  bad : ∀ m ∈ r.log, m.isCall = true → ∀ t ∈ tokenAt tokens m.unread, t.kind = .error →
    r.rest.length < m.unread ∧ m = ⟨m.unread, .badToken t.text, t.line, true⟩
  stuck : (r.halted = false → ∀ m ∈ r.log, m.fault ≠ .stuck) ∧ ∀ m ∈ r.log.tail, m.fault ≠ .stuck

namespace Tells

variable {tokens : List Token} {r s : Reading}

theorem quiet (tokens : List Token) (line : Nat) : Tells tokens (quiet tokens line) where
  suffix := suffix_refl tokens
  behind := by simp
  fresh _ := rfl
  here _ h := absurd rfl h
  once _ := Nat.zero_le 1
  bad := by simp
  stuck := by simp

theorem passed (h : Tells tokens r) (hlog : s.log = r.log) (hrest : s.rest <:+ r.rest)
    (hhalted : s.halted = r.halted) (hfresh : s.told = false → s.failures = 0)
    (hsame : s.rest.length = r.rest.length → s.told = r.told ∧ s.failures = r.failures) :
    Tells tokens s where
  suffix := hrest.trans h.suffix
  behind m hm := Nat.le_trans hrest.length_le (h.behind m (hlog ▸ hm))
  fresh := hfresh
  here hs htold := by
    have hcalls : s.toldAt s.rest.length = r.toldAt s.rest.length := by
      rw [toldAt, toldAt, callsAt, callsAt, hlog]
    have hlength : s.rest.length = r.rest.length := by
      rw [hcalls] at htold
      obtain ⟨m, hm⟩ := exists_mem_of_ne_nil _ htold
      obtain ⟨hm, hunread, -⟩ := mem_callsAt.mp (mem_filter.mp hm).1
      have := h.behind m hm
      have := hrest.length_le
      omega
    obtain ⟨hflag, hcounter⟩ := hsame hlength
    rw [hflag, hcounter, hlength, missesAt, hlog]
    rw [hcalls, hlength] at htold
    exact h.here (hhalted ▸ hs) htold
  once unread := by
    rw [toldAt, callsAt, hlog]
    exact h.once unread
  bad m hm hcall t ht hkind := by
    obtain ⟨hlt, heq⟩ := h.bad m (hlog ▸ hm) hcall t ht hkind
    exact ⟨Nat.lt_of_le_of_lt hrest.length_le hlt, heq⟩
  stuck := by
    rw [hlog, hhalted]
    exact h.stuck

theorem advance (h : Tells tokens r) : Tells tokens r.advance := by
  rw [Reading.advance]
  split
  · exact h.passed rfl (tail_suffix _) rfl h.fresh fun _ => ⟨rfl, rfl⟩
  · exact h

theorem skipLine (h : Tells tokens r) (hr : r.halted = false) : Tells tokens r.skipLine := by
  have hsuffix := (rest_skipLine hr).trans (tail_suffix _)
  have hkeeps : r.skipLine.halted = r.halted ∧ r.skipLine.failures = r.failures := by
    rw [Reading.skipLine, if_neg (by simp [hr])]
    dsimp only
    split <;> exact ⟨rfl, rfl⟩
  refine h.passed (log_skipLine r) hsuffix hkeeps.1 (fun htold => ?_) fun _ =>
    ⟨told_skipLine r, hkeeps.2⟩
  rw [hkeeps.2]
  exact h.fresh (told_skipLine r ▸ htold)

theorem looseNote (h : Tells tokens r) (hr : r.halted = false) (line : Nat) :
    Tells tokens (r.miss .looseNote line true) := by
  have hcalls (unread : Nat) : (r.miss .looseNote line true).callsAt unread = r.callsAt unread :=
    filter_cons_of_neg (by simp [Miss.isCall])
  have hmisses (unread : Nat) : (r.miss .looseNote line true).missesAt unread = r.missesAt unread :=
    countP_cons_of_neg (by simp [isRefusal])
  have hstuck := h.stuck.1 hr
  refine ⟨h.suffix, ?_, h.fresh, fun hs htold => ?_, fun unread => ?_, ?_, ?_⟩
  · exact forall_mem_cons.mpr ⟨Nat.le_refl _, h.behind⟩
  · rw [toldAt, hcalls] at htold
    rw [hmisses]
    exact h.here hs htold
  · rw [toldAt, hcalls]
    exact h.once unread
  · exact forall_mem_cons.mpr ⟨fun hcall => by simp [Miss.isCall] at hcall, h.bad⟩
  · exact ⟨fun _ => forall_mem_cons.mpr ⟨by simp, hstuck⟩, hstuck⟩

theorem toldAt_miss (r : Reading) (hfault : fault ≠ .looseNote) (line : Nat) (told : Bool)
    (unread : Nat) : (r.miss fault line told).toldAt unread =
      if unread = r.rest.length ∧ told = true then
        ⟨r.rest.length, fault, line, told⟩ :: r.toldAt unread
      else r.toldAt unread := by
  have hcall : (fault != .looseNote) = true := bne_iff_ne.mpr hfault
  simp only [toldAt, callsAt, miss, filter_cons, Miss.isCall, hcall, Bool.and_true,
    beq_iff_eq, @eq_comm _ unread]
  by_cases hunread : r.rest.length = unread
  · cases told <;> simp [hunread]
  · simp [hunread]

theorem report (h : Tells tokens r) (hr : r.halted = false) (hfault : fault.isRefusal = true)
    (hkind : ∀ t ∈ r.rest.head?, t.kind ≠ .error) (line : Nat) :
    Tells tokens (r.report fault line) ∧ ((r.report fault line).toldAt r.rest.length ≠ [] →
      r.failures < (r.report fault line).missesAt r.rest.length) := by
  have hnote : fault ≠ .looseNote := by
    rintro rfl
    cases hfault
  have hstuck : fault ≠ .stuck := by
    rintro rfl
    cases hfault
  have htold (unread : Nat) : (r.report fault line).toldAt unread =
      if unread = r.rest.length ∧ (!r.told) = true then
        ⟨r.rest.length, fault, line, !r.told⟩ :: r.toldAt unread
      else r.toldAt unread := toldAt_miss r hnote line _ unread
  have hmisses : (r.report fault line).missesAt r.rest.length = r.missesAt r.rest.length + 1 := by
    simp [missesAt, Reading.report, miss, hfault]
  have hslack (hne : (r.report fault line).toldAt r.rest.length ≠ []) :
      r.failures < (r.report fault line).missesAt r.rest.length := by
    rw [hmisses, Nat.lt_succ_iff]
    cases hflag : r.told with
    | false => exact h.fresh hflag ▸ Nat.zero_le _
    | true =>
      rw [htold, hflag, if_neg (by simp)] at hne
      exact (h.here hr hne).2
  refine ⟨⟨h.suffix, ?_, ?_, fun _ hne => ⟨rfl, Nat.le_of_lt (hslack hne)⟩, fun unread => ?_, ?_,
    ?_⟩, hslack⟩
  · exact forall_mem_cons.mpr ⟨Nat.le_refl _, h.behind⟩
  · intro hflag
    cases hflag
  · rw [htold]
    split
    · next hhere =>
      obtain ⟨rfl, hflag⟩ := hhere
      have hnil : r.toldAt r.rest.length = [] := by
        by_contra hne
        rw [(h.here hr hne).1] at hflag
        cases hflag
      simp [hnil]
    · exact h.once unread
  · refine forall_mem_cons.mpr ⟨fun _ t ht herror => ?_, h.bad⟩
    rw [tokenAt_of_suffix h.suffix] at ht
    exact absurd herror (hkind t ht)
  · exact ⟨fun _ => forall_mem_cons.mpr ⟨hstuck, h.stuck.1 hr⟩, h.stuck.1 hr⟩

theorem fail (h : Tells tokens r) (hr : r.halted = false) (hflag : r.told = true)
    (hne : r.rest ≠ []) (hkind : ∀ t ∈ r.rest.head?, t.kind ≠ .error)
    (hslack : r.toldAt r.rest.length ≠ [] → r.failures < r.missesAt r.rest.length) {line : Nat}
    (hfew : ∀ unread, 0 < unread → (r.fail line).missesAt unread ≤ 4) :
    Tells tokens (r.fail line) := by
  rw [Reading.fail] at hfew ⊢
  split
  · refine ⟨h.suffix, h.behind, fun hflag' => ?_, fun _ htold => ⟨hflag, hslack htold⟩, h.once,
      h.bad, h.stuck⟩
    rw [show r.told = false from hflag'] at hflag
    cases hflag
  · next hfull =>
    rw [if_neg hfull] at hfew
    have hnil : r.toldAt r.rest.length = [] := by
      by_contra htold
      have hmisses : r.missesAt r.rest.length ≤ 4 := by
        refine Nat.le_trans ?_ (hfew r.rest.length (length_pos_iff.mpr hne))
        exact (sublist_cons_self _ _).countP_le
      have := hslack htold
      rw [maxFailures] at hfull
      omega
    have htold := toldAt_miss r (show Fault.stuck ≠ .looseNote by simp) line true
    refine ⟨h.suffix, ?_, fun hflag' => ?_, fun hhalted => (by cases hhalted), fun unread => ?_,
      ?_, ?_⟩
    · exact forall_mem_cons.mpr ⟨Nat.le_refl _, h.behind⟩
    · rw [show r.told = false from hflag'] at hflag
      cases hflag
    · change ((r.miss .stuck line true).toldAt unread).length ≤ 1
      rw [htold]
      split
      · next hhere =>
        obtain ⟨rfl, -⟩ := hhere
        simp [hnil]
      · exact h.once unread
    · refine forall_mem_cons.mpr ⟨fun _ t ht herror => ?_, h.bad⟩
      rw [tokenAt_of_suffix h.suffix] at ht
      exact absurd herror (hkind t ht)
    · exact ⟨fun hhalted => (by cases hhalted), h.stuck.1 hr⟩

theorem badToken (h : Tells tokens r) (hr : r.halted = false) {rest : List Token}
    (hrest : r.rest = t :: rest) (hkind : t.kind = .error) :
    Tells tokens { r.miss (.badToken t.text) t.line true with
      rest := rest, line := t.line, told := true, failures := 0 } := by
  have htoken : tokenAt tokens r.rest.length = some t := by
    rw [tokenAt_of_suffix h.suffix, hrest, head?_cons]
  have hnil : r.callsAt r.rest.length = [] := by
    by_contra hne
    obtain ⟨m, hm⟩ := exists_mem_of_ne_nil _ hne
    obtain ⟨hm, hunread, hcall⟩ := mem_callsAt.mp hm
    have := (h.bad m hm hcall t (hunread ▸ htoken) hkind).1
    omega
  have hlt : rest.length < r.rest.length := by simp [hrest]
  have htold := toldAt_miss r (show Fault.badToken t.text ≠ .looseNote by simp) t.line true
  refine ⟨?_, ?_, fun hflag => (by cases hflag), fun _ _ => ⟨rfl, Nat.zero_le _⟩, fun unread => ?_,
    ?_, ?_⟩
  · exact (hrest ▸ suffix_cons t rest).trans h.suffix
  · exact forall_mem_cons.mpr ⟨Nat.le_of_lt hlt,
      fun m hm => Nat.le_trans (Nat.le_of_lt hlt) (h.behind m hm)⟩
  · change ((r.miss (.badToken t.text) t.line true).toldAt unread).length ≤ 1
    rw [htold]
    split
    · next hhere =>
      obtain ⟨rfl, -⟩ := hhere
      simp [toldAt, hnil]
    · exact h.once unread
  · refine forall_mem_cons.mpr ⟨fun _ u hu _ => ⟨hlt, ?_⟩, fun m hm hcall u hu herror => ?_⟩
    · obtain rfl : t = u := Option.some.inj (htoken.symm.trans hu)
      rfl
    · obtain ⟨hlt', heq⟩ := h.bad m hm hcall u hu herror
      exact ⟨Nat.lt_trans hlt hlt', heq⟩
  · exact ⟨fun _ => forall_mem_cons.mpr ⟨by simp, h.stuck.1 hr⟩, h.stuck.1 hr⟩

theorem consume (h : Tells tokens r) (expected : List Expected)
    (hfew : ∀ unread, 0 < unread → (r.consume expected).2.missesAt unread ≤ 4) :
    Tells tokens (r.consume expected).2 := by
  have hc := consumed expected r
  generalize r.consume expected = c at hc hfew ⊢
  cases hc with
  | givenUp => exact h
  | atEnd hr hrest => exact (h.report hr rfl (by simp [hrest]) _).1
  | @fits t rest hr hrest =>
    have hlt : rest.length < r.rest.length := by simp [hrest]
    exact h.passed rfl (hrest ▸ suffix_cons t rest) rfl (fun _ => rfl) fun hlength =>
      absurd hlength (Nat.ne_of_lt hlt)
  | bad hr hrest _ hkind => exact h.badToken hr hrest hkind
  | @missed t rest hr hrest _ hkind =>
    have hnext : ∀ u ∈ r.rest.head?, u.kind ≠ .error := by
      rw [hrest]
      rintro u ⟨⟩
      exact hkind
    have hrefusal : (unexpected t.lexeme expected).isRefusal = true := rfl
    obtain ⟨htells, hslack⟩ := h.report hr hrefusal hnext t.line
    exact htells.fail hr rfl (by simp [hrest]) hnext hslack hfew

end Tells

variable {tokens : List Token} {r s : Reading}

theorem Step.tells (h : Step r s) (hr : Tells tokens r)
    (hfew : ∀ unread, 0 < unread → s.missesAt unread ≤ 4) : Tells tokens s := by
  cases hhalted : r.halted with
  | true => exact h.eq_of_halted hhalted ▸ hr
  | false =>
    cases h with
    | advance => exact hr.advance
    | skipLine => exact hr.skipLine hhalted
    | looseNote line => exact hr.looseNote hhalted line
    | consume expected => exact hr.consume expected hfew

theorem Reaches.missesAt_le (h : r.Reaches s) (unread : Nat) :
    r.missesAt unread ≤ s.missesAt unread :=
  h.log_suffix.sublist.countP_le

theorem Reaches.tells (h : r.Reaches s) (hr : Tells tokens r)
    (hfew : ∀ unread, 0 < unread → s.missesAt unread ≤ 4) : Tells tokens s := by
  induction h with
  | refl => exact hr
  | tail _ hstep ih =>
    refine hstep.tells (ih fun unread hpos => ?_) hfew
    exact Nat.le_trans (hstep.reaches.missesAt_le unread) (hfew unread hpos)

theorem any_fits_eq_false (ht : t.kind = .error) (h : .kind .error ∉ expected) :
    expected.any (·.fits t) = false := by
  rw [any_eq_false]
  intro e he
  cases e with
  | kind k =>
    have hk : TokenKind.error ≠ k := by
      rintro rfl
      exact h he
    simp [Expected.fits, Token.isKind, ht, hk]
  | punct p =>
    have hp : t.lexeme ≠ .punct p := by
      intro hp
      rw [Token.kind, hp] at ht
      cases ht
    simp [Expected.fits, Token.isPunct, hp]

theorem log_consume_of_error (hnext : r.next? = some t) (ht : t.kind = .error)
    (h : .kind .error ∉ expected) :
    (r.consume expected).2.log = ⟨r.rest.length, .badToken t.text, t.line, true⟩ :: r.log := by
  have hfits := any_fits_eq_false ht h
  have hr : r.halted = false := by
    cases hr : r.halted with
    | false => rfl
    | true => simp [next?_of_halted hr] at hnext
  rw [next?_of_rest hr] at hnext
  have hc := consumed expected r
  generalize r.consume expected = c at hc ⊢
  cases hc with
  | givenUp h' => simp [hr] at h'
  | atEnd _ hrest => simp [hrest] at hnext
  | fits _ hrest hfits' =>
    obtain rfl : _ = t := by simpa [hrest] using hnext
    simp [hfits] at hfits'
  | bad _ hrest =>
    obtain rfl : _ = t := by simpa [hrest] using hnext
    rfl
  | missed _ hrest _ hkind =>
    obtain rfl : _ = t := by simpa [hrest] using hnext
    exact absurd ht hkind

theorem Tells.callsAt_of_error (h : Tells tokens s) {unread : Nat}
    (htoken : tokenAt tokens unread = some t) (ht : t.kind = .error)
    (hmem : ⟨unread, .badToken t.text, t.line, true⟩ ∈ s.log) :
    s.callsAt unread = [⟨unread, .badToken t.text, t.line, true⟩] := by
  have hall : ∀ m ∈ s.callsAt unread, m = ⟨unread, .badToken t.text, t.line, true⟩ := by
    intro m hm
    obtain ⟨hlog, rfl, hcall⟩ := mem_callsAt.mp hm
    exact (h.bad m hlog hcall t htoken ht).2
  have htold : s.toldAt unread = s.callsAt unread :=
    filter_eq_self.mpr fun m hm => by rw [hall m hm]
  have honce := h.once unread
  rw [htold] at honce
  have hmem : _ ∈ s.callsAt unread := mem_callsAt.mpr ⟨hmem, rfl, rfl⟩
  obtain ⟨m, hm⟩ := length_eq_one_iff.mp
    (Nat.le_antisymm honce (length_pos_of_mem hmem))
  rw [hm] at hall ⊢
  rw [hall m mem_cons_self]

theorem exists_of_mem_dropLast_problems {p : Problem} (h : p ∈ r.problems.dropLast) :
    ∃ m ∈ r.log.tail, p.fault = m.fault := by
  cases hlog : r.log with
  | nil => simp [problems, hlog] at h
  | cons m log =>
    have hmem :
        p ∈ (log.reverse.filter (·.told)).map fun m => (⟨m.fault, m.line, none⟩ : Problem) := by
      rw [problems, hlog, reverse_cons, filter_append, map_append] at h
      cases htold : m.told with
      | true => simpa [htold] using h
      | false =>
        rw [filter_cons_of_neg (by simp [htold]), filter_nil, map_nil,
          append_nil] at h
        exact (dropLast_sublist _).subset h
    obtain ⟨m', hm', rfl⟩ := mem_map.mp hmem
    exact ⟨m', mem_reverse.mp (mem_filter.mp hm').1, rfl⟩

end Reading

theorem Fault.message_ne_of_ne_stuck (h : fault ≠ .stuck) : fault.message ≠ "Internal error" := by
  have first {a b : String} (h : a.toList.head? ≠ b.toList.head?) : a ≠ b := fun e => h (e ▸ rfl)
  unfold message
  cases fault with
  | stuck => exact absurd rfl h
  | _ => exact first (by simp)

open Reading in
/-- No two problems are told by calls at the same position, whether a token stands there or the text
ends. Wherever a call finds a piece of text that is no token, that piece has its own problem and no
other miss. Reading is given up at most once, and its problem is the last. -/
theorem told_once {σ Scope α : Type} (v : Visitor σ Scope α) (tokens : List Token) (st : σ) :
    let last := (Live.run v tokens st).2.reading
    last.problems = (parse tokens).problems ∧
    (∀ unread, (last.toldAt unread).length ≤ 1) ∧
    (∀ (r : Reading) (expected : List Expected) (t : Token), (quiet tokens 1).Reaches r →
      (r.consume expected).2.Reaches last → .kind .error ∉ expected →
      r.next? = some t → t.kind = .error →
      last.callsAt r.rest.length = [⟨r.rest.length, .badToken t.text, t.line, true⟩]) ∧
    (∀ m ∈ last.log, m.isCall = true → ∀ t ∈ tokenAt tokens m.unread, t.kind = .error →
      m = ⟨m.unread, .badToken t.text, t.line, true⟩) ∧
    ∀ p ∈ (parse tokens).problems.dropLast, p.message ≠ "Internal error" := by
  intro last
  have hlast : last = (readAll tokens).2 := (Live.mirrors_run v tokens st).reading
  have hreach : (quiet tokens 1).Reaches last := hlast ▸
    (ReadM.Moves.items none (2 * tokens.length + 2)).reaches (quiet tokens 1)
  have hfew : ∀ unread, 0 < unread → last.missesAt unread ≤ 4 := by
    rw [hlast]
    exact fun _ => missesAt_readAll tokens
  have htells := hreach.tells (.quiet tokens 1) hfew
  have hproblems : last.problems = (parse tokens).problems := by
    rw [hlast]
    rfl
  refine ⟨hproblems, htells.once, fun r expected t hr hs hexpected hnext ht => ?_,
    fun m hm hcall t htoken ht => (htells.bad m hm hcall t htoken ht).2, fun p hp => ?_⟩
  · have hlog := log_consume_of_error hnext ht hexpected
    have hrest := hr.tells (.quiet tokens 1) fun unread hpos =>
      Nat.le_trans (((Step.consume expected r).reaches.trans hs).missesAt_le unread)
        (hfew unread hpos)
    have htoken : tokenAt tokens r.rest.length = some t := by
      rw [tokenAt_of_suffix hrest.suffix, ← hnext, Reading.next?]
      split
      · next hr => simp [next?_of_halted hr] at hnext
      · rfl
    exact htells.callsAt_of_error htoken ht (hs.log_suffix.subset (hlog ▸ mem_cons_self))
  · rw [← hproblems] at hp
    obtain ⟨m, hm, hfault⟩ := exists_of_mem_dropLast_problems hp
    exact message_ne_of_ne_stuck (hfault ▸ htells.stuck.2 m hm)

end CommandText
