import CommandText.Proofs.ArgumentTokens
import CommandText.Proofs.TwinReading

/-!
# Arguments with a bad token in them

A bad token in the arguments of a command is passed over and told, by the call for a comma or by
that for a value, whichever comes first. Right behind it one further call may be in vain, which is
not told. Then the reading has come to a token that fits again, and all arguments are read.

Arguments and the values of a list have the same shape, parts with commas between them. So what
happens to the bad token between two parts is shown once for both; it stands within a part only if
that part is a list or has a label.
-/

namespace CommandText

open Token List Reading Form

variable {isFirst : Bool} {x rest : List Token} {r : Reading} {n : Nat}

namespace Form

open ReadM

/-- A form that takes the same tokens in front of any others, and takes at least one. -/
def Shifts {α : Type} (One : List Token → α → List Token → Prop) : Prop :=
  ∀ {input a mid}, One input a mid → ∃ x, x ≠ [] ∧ input = x ++ mid ∧ ∀ mid', One (x ++ mid') a mid'

theorem Movable.shifts {α : Type} {move : Nat → α → α} {One : List Token → α → List Token → Prop}
    (h : Movable move One)
    (hlt : ∀ {input a mid}, One input a mid → mid.length < input.length) : Shifts One := by
  intro input a mid ha
  obtain ⟨w, rfl, -, hw, -⟩ := h ha
  refine ⟨w, ?_, rfl, hw⟩
  rintro rfl
  exact absurd (hlt ha) (Nat.lt_irrefl _)

theorem Rounds.exists_append {α : Type} {begins : Token → Bool}
    {One : List Token → α → List Token → Prop} {input : List Token} {as : List α}
    (h : Rounds begins One isFirst input as rest) (hOne : Shifts One) : ∃ x, input = x ++ rest := by
  induction h with
  | stop => exact ⟨[], rfl⟩
  | first ha _ ih =>
    obtain ⟨p, -, rfl, -⟩ := hOne ha
    obtain ⟨q, rfl⟩ := ih
    exact ⟨p ++ q, (append_assoc _ _ _).symm⟩
  | @more c _ _ _ _ _ _ ha _ ih =>
    obtain ⟨p, -, rfl, -⟩ := hOne ha
    obtain ⟨q, rfl⟩ := ih
    exact ⟨c :: (p ++ q), by simp⟩

end Form

/-- Behind the bad token, before anything else has fitted or been missed. -/
structure Reading.Hushed (o : Spot) (rest : List Token) (r : Reading) : Prop
    extends After o rest r where
  told : r.told = true
  failures : r.failures = 0

theorem Reading.After.nextIs {o : Spot} {rest : List Token} (h : After o rest r)
    (p : Token → Bool) : r.nextIs p = startsWith p rest := by
  rw [Reading.nextIs, next?_of_rest h.halted, h.rest]
  rfl

theorem Reading.After.consume {o : Spot} {t : Token} {rest : List Token} (h : After o (t :: rest) r)
    {expected : List Expected} (hfits : expected.any (·.fits t) = true) :
    After o rest (r.consume expected).2 := by
  rw [consume_of_fits expected h.halted h.rest hfits]
  exact ⟨rfl, h.halted, h.problems⟩

theorem Reading.problems_report (h : r.told = true) (fault : Fault) (line : Nat) :
    (r.report fault line).problems = r.problems := by
  simp [problems, report, miss, h]

namespace ReadM

variable {o : Spot} {α : Type}
variable {u : List Token}

theorem hushed_consume (expected : List Expected) (h : expected.any (·.fits o.bad) = false)
    (rest : List Token) (line : Nat) :
    ∃ r, consume expected (quiet (o.bad :: rest) line) = (none, r) ∧ Hushed o rest r := by
  change ∃ r, (quiet (o.bad :: rest) line).consume expected = _ ∧ _
  have hc := consumed expected (quiet (o.bad :: rest) line)
  generalize (quiet (o.bad :: rest) line).consume expected = c at hc ⊢
  cases hc with
  | givenUp h' | atEnd _ h' => cases h'
  | fits _ hrest hfits =>
    obtain ⟨rfl, -⟩ := cons.inj hrest
    rw [h] at hfits
    cases hfits
  | bad _ hrest =>
    obtain ⟨rfl, rfl⟩ := cons.inj hrest
    exact ⟨_, rfl, ⟨rfl, rfl, rfl⟩, rfl, rfl⟩
  | missed _ hrest _ hkind =>
    obtain ⟨rfl, -⟩ := cons.inj hrest
    exact absurd o.isBad hkind

theorem after_consume (expected : List Expected) (h : Hushed o rest r)
    (hmiss : startsWith (fun t => expected.any (·.fits t) || t.isKind .error) rest = false) :
    ∃ r', consume expected r = (none, r') ∧ After o rest r' := by
  change ∃ r', r.consume expected = _ ∧ _
  have hc := consumed expected r
  generalize r.consume expected = c at hc ⊢
  have hreport (fault : Fault) (line : Nat) : After o rest (r.report fault line) :=
    ⟨h.rest, h.halted, (problems_report h.told fault line).trans h.problems⟩
  cases hc with
  | givenUp h' => simp [h.halted] at h'
  | atEnd => exact ⟨_, rfl, hreport _ _⟩
  | fits _ hrest hfits =>
    obtain rfl := h.rest.symm.trans hrest
    simp [hfits] at hmiss
  | bad _ hrest _ hkind =>
    obtain rfl := h.rest.symm.trans hrest
    simp [isKind_iff.mpr hkind] at hmiss
  | @missed t =>
    have hfew : (r.report (.unexpected t.lexeme expected) t.line).failures < maxFailures := by
      rw [report, miss, h.failures]
      decide
    rw [fail, if_pos hfew]
    obtain ⟨hrest, hhalted, hproblems⟩ := hreport (.unexpected t.lexeme expected) t.line
    exact ⟨_, rfl, hrest, hhalted, hproblems⟩

/-! ### Parts with commas between them -/

/-- What is known of a part in which the bad token may stand. -/
structure Spoils {α : Type} (o : Spot) (opens : Token → Bool) (one : ReadM (Option α))
    (One : List Token → α → List Token → Prop) : Prop where
  exact : ∀ input, Exact one input fun a? rest => ∃ a, a? = some a ∧ One input a rest
  starts : ∀ {input a rest}, One input a rest → startsWith opens input = true
  plain : ∀ t : Token, opens t = true → t.isPunct .comma = false ∧ t.isKind .error = false
  shifts : Shifts One
  /-- The bad token takes the place of the part. -/
  bad : ∀ rest line, ∃ r, one (quiet (o.bad :: rest) line) = (none, r) ∧ Hushed o rest r
  /-- No part begins behind the bad token. -/
  miss : ∀ {rest r}, Hushed o rest r →
    startsWith (fun t => opens t || t.isKind .error) rest = false →
    ∃ r', one r = (none, r') ∧ After o rest r'
  /-- The bad token stands within the part. -/
  inside : ∀ {u v mid a}, One (u ++ (v ++ mid)) a mid → u ≠ [] → v ≠ [] →
    (∀ t ∈ u.getLast?, t.isKind .label = false) → ∀ line,
    ∃ r, one (quiet (u ++ o.bad :: (v ++ mid)) line) = (some a, r) ∧ After o mid r

section Rounds

variable {begins : Token → Bool} {one : ReadM (Option α)}

theorem partRounds_apply {a : Option α} {as : List α} {s t : Reading} (ha : one r = (a, s))
    (has : commaRounds begins one n false s = (as, t)) :
    partRounds begins one n r = (a.toList ++ as, t) := by
  rw [partRounds, bind_apply, ha, bind_apply, has]
  rfl

theorem commaRounds_first (h : r.nextIs begins = true) :
    commaRounds begins one (n + 1) true r = partRounds begins one n r := by
  rw [commaRounds_succ, commaRound, nextIs_bind_apply, h]
  rfl

theorem commaRounds_more (h : r.nextIs begins = true) :
    commaRounds begins one (n + 1) false r =
      partRounds begins one n (r.consume [.punct .comma]).2 := by
  rw [commaRounds_succ, commaRound, nextIs_bind_apply, h]
  rfl

theorem commaRounds_stop (h : r.nextIs begins = false) (isFirst : Bool) :
    commaRounds begins one (n + 1) isFirst r = ([], r) := by
  rw [commaRounds_succ, commaRound, nextIs_bind_apply, h]
  rfl

instance Along.partRounds [Moves one] [Along o false one] :
    Along o false (partRounds begins one n) := by
  unfold ReadM.partRounds
  infer_instance

end Rounds

theorem any_fits_punct (p : Punct) : [Expected.punct p].any (·.fits o.bad) = false := by
  have hpunct := isPunct_eq_false (t := o.bad) (by simp [o.isBad]) p
  simp [Expected.fits, hpunct]

theorem any_fits_value : valueKinds.any (·.fits o.bad) = false := by
  rw [any_fits_valueKinds, isValue, o.isBad]
  rfl

theorem mem_getLast?_cons {t d : Token} (h : d ∈ u.getLast?) : d ∈ (t :: u).getLast? := by
  rw [getLast?_cons, Option.mem_def.mp h]
  rfl

section Spoils

variable {opens begins : Token → Bool} {one : ReadM (Option α)}
variable {One : List Token → α → List Token → Prop} (hspoils : Spoils o opens one One)
variable (hbegins : ∀ t, begins t = (opens t || t.isKind .error || t.isPunct .comma))
variable {input mid : List Token} {a : α}

include hbegins in
theorem startsWith_of_begins (h : startsWith begins rest = false) :
    startsWith (fun t => opens t || t.isKind .error) rest = false := by
  cases rest with
  | nil => rfl
  | cons t rest =>
    rw [startsWith_cons, hbegins] at h
    exact (Bool.or_eq_false_iff.mp h).1

include hspoils in
theorem Spoils.quiet_one (h : One input a mid) (line : Nat) :
    ∃ line', one (quiet input line) = (some a, quiet mid line') :=
  (hspoils.exact input line (some a) mid).mpr ⟨a, rfl, h⟩

include hspoils in
theorem Spoils.length_lt (h : One input a mid) : mid.length < input.length := by
  obtain ⟨x, hx, rfl, -⟩ := hspoils.shifts h
  have := length_pos_iff.mpr hx
  rw [length_append]
  omega

variable [Moves one]

include hspoils hbegins in
theorem Spoils.rounds {as : List α} (h : Rounds begins One isFirst input as rest)
    (hn : input.length < n) (line : Nat) :
    ∃ line', commaRounds begins one n isFirst (quiet input line) = (as, quiet rest line') := by
  refine (Exact.rounds hspoils.exact hspoils.length_lt ?_ ?_ n isFirst input hn line as rest).mpr h
  · intro input a rest h
    obtain ⟨t, input, rfl, ht⟩ := exists_cons_of_startsWith (hspoils.starts h)
    rw [startsWith_cons, hbegins, ht]
    rfl
  · intro c hc
    rw [hbegins, hc, Bool.or_true]

variable [Along o false one]

include hspoils hbegins in
theorem Spoils.rounds_hushed {as : List α} (ha : One input a mid)
    (h : Rounds begins One false mid as rest) (hn : mid.length < n) (hr : Hushed o input r) :
    ∃ r', commaRounds begins one (n + 1) false r = (a :: as, r') ∧ After o rest r' := by
  obtain ⟨t, input, rfl, ht⟩ := exists_cons_of_startsWith (hspoils.starts ha)
  obtain ⟨hcomma, herror⟩ := hspoils.plain t ht
  have hnext : r.nextIs begins = true := by
    rw [hr.toAfter.nextIs begins, startsWith_cons, hbegins, ht]
    rfl
  obtain ⟨r₁, hr₁, hafter⟩ := after_consume [.punct .comma] hr
    (by simp [Expected.fits, hcomma, herror])
  rw [commaRounds_more hnext, show (r.consume [.punct .comma]).2 = r₁ from congrArg Prod.snd hr₁]
  obtain ⟨line₁, hone⟩ := hspoils.quiet_one ha 0
  obtain ⟨line₂, hrounds⟩ := hspoils.rounds hbegins h hn line₁
  exact Along.after false hafter (partRounds_apply hone hrounds)

include hspoils hbegins in
theorem Spoils.part {as : List α} (ha : One input a mid) (h : Rounds begins One false mid as rest)
    (ih : ∀ u x line, mid = u ++ (x ++ rest) → (∀ t ∈ u.getLast?, t.isKind .label = false) → ∃ r,
      commaRounds begins one n false (quiet (u ++ o.bad :: (x ++ rest)) line) = (as, r) ∧
        After o rest r)
    (hn : mid.length + 1 < n) {u : List Token} (line : Nat) (hinput : input = u ++ (x ++ rest))
    (hu : ∀ t ∈ u.getLast?, t.isKind .label = false) :
    ∃ r, partRounds begins one n (quiet (u ++ o.bad :: (x ++ rest)) line) = (a :: as, r) ∧
      After o rest r := by
  obtain ⟨p, hp, rfl, hshift⟩ := hspoils.shifts ha
  obtain ⟨q, rfl⟩ := h.exists_append hspoils.shifts
  -- behind the part
  have behind (u' : List Token) (hu' : u = p ++ u') (hq : q = u' ++ x) :
      ∃ r, partRounds begins one n (quiet (u ++ o.bad :: (x ++ rest)) line) = (a :: as, r) ∧
        After o rest r := by
    subst hu' hq
    obtain ⟨line₁, hone⟩ := hspoils.quiet_one (hshift (u' ++ o.bad :: (x ++ rest))) line
    obtain ⟨r, hr, hafter⟩ := ih u' x line₁ (append_assoc _ _ _) fun t ht => hu t (by
      rw [getLast?_append, Option.mem_def.mp ht]
      rfl)
    rw [append_assoc]
    exact ⟨r, partRounds_apply hone hr, hafter⟩
  rw [← append_assoc, ← append_assoc] at hinput
  rcases append_eq_append_iff.mp (append_cancel_right hinput) with
    ⟨u', hu', hq⟩ | ⟨v, rfl, rfl⟩
  · exact behind u' hu' hq
  · rw [append_assoc]
    by_cases hv : v = []
    · subst hv
      exact behind [] (by simp) rfl
    · by_cases hnil : u = []
      · subst hnil
        obtain ⟨n, rfl⟩ := Nat.exists_eq_add_one_of_ne_zero (show n ≠ 0 by omega)
        obtain ⟨r₁, hone, hhushed⟩ := hspoils.bad (v ++ (q ++ rest)) line
        obtain ⟨r, hr, hafter⟩ := hspoils.rounds_hushed hbegins ha h (n := n) (by omega) hhushed
        exact ⟨r, partRounds_apply hone hr, hafter⟩
      · rw [append_assoc] at ha
        obtain ⟨r₁, hone, hafter₁⟩ := hspoils.inside ha hnil hv hu line
        obtain ⟨line₂, hrounds⟩ := hspoils.rounds hbegins h (n := n) (by omega) 0
        obtain ⟨r, hr, hafter⟩ := Along.after false hafter₁ hrounds
        exact ⟨r, partRounds_apply hone hr, hafter⟩

omit [Moves one] [Along o false one] in
include hbegins in
theorem nextIs_bad (rest : List Token) (line : Nat) :
    (quiet (o.bad :: rest) line).nextIs begins = true := by
  rw [nextIs_quiet, head?_cons, Option.any_some, hbegins, isKind_iff.mpr o.isBad,
    Bool.or_true, Bool.true_or]

omit [Moves one] [Along o false one] in
include hspoils hbegins in
theorem Spoils.rounds_bad (h : startsWith (fun t => opens t || t.isKind .error) rest = false)
    (line : Nat) : ∃ r, After o rest r ∧ ∀ as r', commaRounds begins one n false r = (as, r') →
      commaRounds begins one (n + 1) false (quiet (o.bad :: rest) line) = (as, r') := by
  obtain ⟨r₁, hconsume, hr₁⟩ := hushed_consume [.punct .comma] (any_fits_punct .comma) rest line
  obtain ⟨r, hone, hr⟩ := hspoils.miss hr₁ h
  refine ⟨r, hr, fun as r' has => ?_⟩
  rw [commaRounds_more (nextIs_bad hbegins rest line),
    show ((quiet (o.bad :: rest) line).consume _).2 = r₁ from congrArg Prod.snd hconsume]
  exact partRounds_apply hone has

include hspoils hbegins in
theorem Spoils.spoiled {as : List α} (h : Rounds begins One isFirst input as rest) {u : List Token}
    (line : Nat) (hinput : input = u ++ (x ++ rest))
    (hu : ∀ t ∈ u.getLast?, t.isKind .label = false) (hn : input.length + 1 < n) :
    ∃ r, commaRounds begins one (n + 1) isFirst (quiet (u ++ o.bad :: (x ++ rest)) line) = (as, r) ∧
      After o rest r := by
  induction h generalizing u x n line with
  | @stop isFirst rest hstop =>
    obtain ⟨rfl, rfl⟩ : u = [] ∧ x = [] := by
      have hlength := congrArg List.length hinput
      simp only [length_append] at hlength
      exact ⟨length_eq_zero_iff.mp (by omega), length_eq_zero_iff.mp (by omega)⟩
    obtain ⟨n, rfl⟩ := Nat.exists_eq_add_one_of_ne_zero (show n ≠ 0 by omega)
    -- nothing follows the bad token
    have hend {r : Reading} (hr : After o rest r) :
        commaRounds begins one (n + 1) false r = ([], r) :=
      commaRounds_stop ((hr.nextIs begins).trans hstop) false
    cases isFirst with
    | true =>
      obtain ⟨r, hone, hr⟩ := hspoils.bad rest line
      refine ⟨r, ?_, hr.toAfter⟩
      exact (commaRounds_first (nextIs_bad hbegins rest line)).trans
        (partRounds_apply hone (hend hr.toAfter))
    | false =>
      obtain ⟨r, hr, hrounds⟩ :=
        hspoils.rounds_bad hbegins (startsWith_of_begins hbegins hstop) line
      exact ⟨r, hrounds _ _ (hend hr), hr⟩
  | @first input a mid as rest ha h ih =>
    have hlength := hspoils.length_lt ha
    obtain ⟨n, rfl⟩ := Nat.exists_eq_add_one_of_ne_zero (show n ≠ 0 by omega)
    have hnext : (quiet (u ++ o.bad :: (x ++ rest)) line).nextIs begins = true := by
      cases u with
      | nil => exact nextIs_bad hbegins _ line
      | cons t u =>
        have ht := hspoils.starts ha
        rw [hinput, cons_append, startsWith_cons] at ht
        rw [cons_append, nextIs_quiet, head?_cons, Option.any_some, hbegins, ht]
        rfl
    rw [commaRounds_first hnext]
    exact hspoils.part hbegins ha h (fun _ _ line hmid hu => ih line hmid hu (by omega)) (by omega)
      line hinput hu
  | @more c input a mid as rest hc ha h ih =>
    have hlength := hspoils.length_lt ha
    rw [length_cons] at hn
    cases u with
    | nil =>
      -- the comma behind the bad token is still to come
      have hopens : startsWith (fun t => opens t || t.isKind .error) (c :: input) = false := by
        have herror : c.isKind .error = false := by
          simp [isKind_eq_false_iff, kind_of_isPunct hc]
        rw [startsWith_cons, herror, Bool.or_false, ← Bool.not_eq_true]
        intro ht
        rw [(hspoils.plain c ht).1] at hc
        cases hc
      obtain ⟨r₁, hr₁, hrounds⟩ := hspoils.rounds_bad hbegins hopens line
      obtain ⟨line₂, hquiet⟩ := hspoils.rounds hbegins (.more hc ha h) (n := n) (by simp; omega) 0
      obtain ⟨r, hr, hafter⟩ := Along.after false hr₁ hquiet
      rw [nil_append, ← nil_append (x ++ rest), ← hinput]
      exact ⟨r, hrounds _ _ hr, hafter⟩
    | cons t u =>
      obtain ⟨rfl, hrest⟩ := cons.inj hinput
      obtain ⟨n, rfl⟩ := Nat.exists_eq_add_one_of_ne_zero (show n ≠ 0 by omega)
      have hnext : (quiet (c :: (u ++ o.bad :: (x ++ rest))) line).nextIs begins = true := by
        rw [nextIs_quiet, head?_cons, Option.any_some, hbegins, hc, Bool.or_true]
      rw [cons_append, commaRounds_more hnext,
        consume_quiet_of_fits (by simp [Expected.fits, hc])]
      exact hspoils.part hbegins ha h (fun _ _ line hmid hu => ih line hmid hu (by omega))
        (by omega) c.line hrest fun t ht => hu t (mem_getLast?_cons ht)

end Spoils

/-! ### Values and arguments -/

theorem plain_of_isValue (t : Token) (h : t.isValue = true) :
    t.isPunct .comma = false ∧ t.isKind .error = false := by
  refine ⟨isPunct_eq_false (kind_ne_punctuation_of_isValue h) _, ?_⟩
  rw [isKind_eq_false_iff]
  intro hkind
  rw [isValue, hkind] at h
  cases h

theorem spoils_value : Spoils o isValue (consume valueKinds) ValueToken where
  exact := Exact.value
  starts h := by
    cases h with
    | mk hv => exact hv
  plain := plain_of_isValue
  shifts := ValueToken.movable.shifts ValueToken.length_lt
  bad := hushed_consume valueKinds any_fits_value
  miss h hrest := by
    refine after_consume valueKinds h ?_
    simpa only [any_fits_valueKinds] using hrest
  inside {u v mid a} h hu hv := by
    -- a value is a single token
    have hlength : (u ++ (v ++ mid)).length = mid.length + 1 := by
      generalize u ++ (v ++ mid) = input at h
      cases h
      rfl
    have := length_pos_iff.mpr hu
    have := length_pos_iff.mpr hv
    simp only [length_append] at hlength
    omega

theorem spoiled_valueList {input vs : List Token} (h : Values true input vs rest) (line : Nat)
    (hinput : input = u ++ (x ++ rest)) (hu : ∀ t ∈ u.getLast?, t.isKind .label = false) :
    ∃ r, valueList (quiet (u ++ o.bad :: (x ++ rest)) line) = (vs, r) ∧ After o rest r := by
  obtain ⟨r, hr, hafter⟩ := spoils_value.spoiled (fun _ => rfl) h (n := input.length + 2) line
    hinput hu (by omega)
  refine ⟨r, ?_, hafter⟩
  rw [← hr]
  refine (iterate_valuesRound _ ?_).symm
  rw [hinput]
  simp only [rest_quiet, length_append, length_cons]
  omega

theorem argumentValue_list {r₁ : Reading} {vs : List Token}
    (hopen : r.nextIs (·.isPunct .openBracket) = true)
    (hvs : valueList (r.consume [.punct .openBracket]).2 = (vs, r₁)) :
    argumentValue r = (some (.list vs), (r₁.consume [.punct .closeBracket]).2) := by
  rw [argumentValue, nextIs_bind_apply, hopen, if_pos rfl]
  change (valueList >>= fun tokens => discard (consume [.punct .closeBracket]) >>= fun _ =>
    pure (some (ArgumentValue.list tokens))) (r.consume [.punct .openBracket]).2 = _
  rw [bind_apply, hvs]
  rfl

theorem spoiled_argumentValue {v mid : List Token} {a : ArgumentValue}
    (h : OneValue (u ++ (v ++ mid)) a mid) (hu : u ≠ []) (hv : v ≠ [])
    (hlabel : ∀ t ∈ u.getLast?, t.isKind .label = false) (line : Nat) :
    ∃ r, argumentValue (quiet (u ++ o.bad :: (v ++ mid)) line) = (some a, r) ∧ After o mid r := by
  generalize hinput : u ++ (v ++ mid) = input at h
  cases h with
  | single =>
    have hlength := congrArg List.length hinput
    have := length_pos_iff.mpr hu
    have := length_pos_iff.mpr hv
    simp only [length_append, length_cons] at hlength
    omega
  | @list b c inner vs _ hb hvs hc =>
    obtain ⟨t, u, rfl⟩ := exists_cons_of_ne_nil hu
    rw [cons_append] at hinput
    obtain ⟨rfl, hinner⟩ := cons.inj hinput
    -- the closing bracket stands behind the bad token
    obtain ⟨x, rfl⟩ : ∃ x, v = x ++ [c] := by
      obtain ⟨q, hq⟩ := hvs.exists_append (ValueToken.movable.shifts ValueToken.length_lt)
      obtain rfl | ⟨x, d, hx⟩ := eq_nil_or_concat v
      · exact absurd rfl hv
      · rw [concat_eq_append] at hx
        subst hx
        rw [← hinner, append_cons q, ← append_assoc, ← append_assoc] at hq
        have hd := (append_inj' (append_cancel_right hq) rfl).2
        exact ⟨x, by rw [hd]⟩
    rw [append_assoc, singleton_append] at hinner ⊢
    obtain ⟨r₁, hr₁, hafter⟩ := spoiled_valueList (o := o) hvs t.line hinner.symm
      fun d hd => hlabel d (mem_getLast?_cons hd)
    have hopen : [Expected.punct .openBracket].any (·.fits t) = true := by
      simp [Expected.fits, hb]
    refine ⟨_, argumentValue_list hb ?_, hafter.consume (by simp [Expected.fits, hc])⟩
    rw [cons_append, consume_quiet_of_fits hopen]
    exact hr₁

theorem spoiled_argument {v mid : List Token} {a : Argument}
    (h : OneArgument (u ++ (v ++ mid)) a mid) (hu : u ≠ []) (hv : v ≠ [])
    (hlabel : ∀ t ∈ u.getLast?, t.isKind .label = false) (line : Nat) :
    ∃ r, argument (quiet (u ++ o.bad :: (v ++ mid)) line) = (some a, r) ∧ After o mid r := by
  obtain ⟨t, u, rfl⟩ := exists_cons_of_ne_nil hu
  generalize hinput : t :: u ++ (v ++ mid) = input at h
  cases h with
  | @unlabeled _ a _ h =>
    subst hinput
    have hnext : t.isKind .label = false := by
      have ht := h.starts
      rw [cons_append, startsWith_cons, Bool.or_eq_true] at ht
      rw [isKind_eq_false_iff]
      intro hkind
      rcases ht with ht | ht
      · rw [isValue, hkind] at ht
        cases ht
      · rw [kind_of_isPunct ht] at hkind
        cases hkind
    obtain ⟨r, hr, hafter⟩ := spoiled_argumentValue (o := o) h hu hv hlabel line
    refine ⟨r, ?_, hafter⟩
    rw [cons_append, argument, nextIs_bind_apply, nextIs_quiet, head?_cons,
      Option.any_some, hnext, if_neg Bool.false_ne_true, bind_apply, ← cons_append, hr]
    rfl
  | @labeled l input a _ hl h =>
    rw [cons_append] at hinput
    obtain ⟨rfl, rfl⟩ := cons.inj hinput
    have hne : u ≠ [] := by
      rintro rfl
      rw [hlabel t rfl] at hl
      cases hl
    obtain ⟨r, hr, hafter⟩ := spoiled_argumentValue (o := o) h hne hv
      (fun d hd => hlabel d (mem_getLast?_cons hd)) t.line
    refine ⟨r, ?_, hafter⟩
    rw [cons_append, argument, nextIs_bind_apply, nextIs_quiet, head?_cons,
      Option.any_some, hl, if_pos rfl]
    change (argumentValue >>= fun v => pure (some (⟨some t, v.getD (.list [])⟩ : Argument)))
      (quiet (u ++ o.bad :: (v ++ mid)) t.line) = _
    rw [bind_apply, hr]
    rfl

/-- Whether a token may stand first in an argument. -/
def opensArgument (t : Token) : Bool := t.isValue || t.isKind .label || t.isPunct .openBracket

theorem argument_of_none {r' : Reading} (hlabel : r.nextIs (·.isKind .label) = false)
    (hopen : r.nextIs (·.isPunct .openBracket) = false) (h : consume valueKinds r = (none, r')) :
    argument r = (none, r') := by
  rw [argument, nextIs_bind_apply, hlabel, if_neg Bool.false_ne_true, bind_apply, argumentValue,
    nextIs_bind_apply, hopen, if_neg Bool.false_ne_true, bind_apply, h]
  rfl

theorem spoils_argument : Spoils o opensArgument argument OneArgument where
  exact := Exact.argument
  starts h := by
    cases h with
    | unlabeled h =>
      obtain ⟨t, input, rfl, ht⟩ := exists_cons_of_startsWith h.starts
      rcases Bool.or_eq_true _ _ ▸ ht with ht | ht <;> simp [opensArgument, ht]
    | labeled hl => simp [opensArgument, hl]
  plain t ht := by
    rw [opensArgument, Bool.or_eq_true, Bool.or_eq_true] at ht
    rcases ht with (ht | ht) | ht
    · exact plain_of_isValue t ht
    · rw [isKind_iff] at ht
      exact ⟨isPunct_eq_false (by simp [ht]) _, by simp [isKind_eq_false_iff, ht]⟩
    · refine ⟨(isPunct_of_isPunct ht .comma).trans rfl, ?_⟩
      simp [isKind_eq_false_iff, kind_of_isPunct ht]
  shifts := OneArgument.movable.shifts OneArgument.length_lt
  bad rest line := by
    obtain ⟨r, hr, hhushed⟩ := hushed_consume valueKinds (any_fits_value (o := o)) rest line
    refine ⟨r, argument_of_none ?_ ?_ hr, hhushed⟩
    · simp [isKind_eq_false_iff, o.isBad]
    · exact isPunct_eq_false (by simp [o.isBad]) _
  miss {rest r} h hrest := by
    have hnext (p : Token → Bool) (hp : ∀ t, p t = true → opensArgument t = true) :
        r.nextIs p = false := by
      rw [h.toAfter.nextIs]
      cases rest with
      | nil => rfl
      | cons t rest =>
        rw [startsWith_cons, Bool.or_eq_false_iff] at hrest
        rw [startsWith_cons, ← Bool.not_eq_true]
        intro ht
        rw [hp t ht] at hrest
        cases hrest.1
    have hvalue :
        startsWith (fun t => valueKinds.any (·.fits t) || t.isKind .error) rest = false := by
      cases rest with
      | nil => rfl
      | cons t rest =>
        simp_all [opensArgument, any_fits_valueKinds]
    obtain ⟨r', hr', hafter⟩ := after_consume valueKinds h hvalue
    refine ⟨r', argument_of_none (hnext _ fun t ht => ?_) (hnext _ fun t ht => ?_) hr', hafter⟩
    · simp [opensArgument, ht]
    · simp [opensArgument, ht]
  inside := spoiled_argument

theorem spoiled_arguments {input : List Token} {as : List Argument}
    (h : Arguments true input as rest) (line : Nat) (hinput : input = u ++ (x ++ rest))
    (hu : ∀ t ∈ u.getLast?, t.isKind .label = false) :
    ∃ r, arguments (quiet (u ++ o.bad :: (x ++ rest)) line) = (as, r) ∧ After o rest r := by
  have hbegins (t : Token) :
      startsArgument t = (opensArgument t || t.isKind .error || t.isPunct .comma) := by
    simp only [startsArgument, opensArgument]
    ac_rfl
  obtain ⟨r, hr, hafter⟩ := spoils_argument.spoiled hbegins h (n := input.length + 2) line
    hinput hu (by omega)
  refine ⟨r, ?_, hafter⟩
  rw [← hr]
  refine (iterate_argumentRound _ ?_).symm
  rw [hinput]
  simp only [rest_quiet, length_append, length_cons]
  omega

end ReadM

end CommandText
