import CommandText.Editor.Link
import CommandText.Proofs.ArgumentTokens

/-!
# What stands in front of a value

Up to one of its values, an argument list is made of whole arguments with a comma behind each of
them, of the label of the value's argument, and of a bracket and the values in front if the value
stands in a list. From these tokens alone it is seen how the value is addressed: by its label, or by
the number of commas.
-/

namespace CommandText

open Token List ArgumentPlace

variable {args before : List Argument} {vs w us : List Token} {a : Argument} {label : Option Token}
variable {t : Token}

/-- The values in front of one in its list. A single value stands in no list. -/
def ArgumentValue.listFront (j : Nat) : ArgumentValue → Option (List Token)
  | single _ => none
  | list vs => some (vs.take j)

namespace Form

open ReadM

variable {α : Type} {One : List Token → α → List Token → Prop}
variable {input rest us : List Token} {as : List α} {move : Nat → α → α}

/-! ### Whole parts -/

/-- Whole parts, with a comma behind each of them. -/
inductive Parts (One : List Token → α → List Token → Prop) : List Token → List α → Prop
  | nil : Parts One [] []
  | cons {w : List Token} {a : α} {c : Token} {us : List Token} {as : List α} (ha : One w a [])
      (hc : c.isPunct .comma = true) (h : Parts One us as) : Parts One (w ++ c :: us) (a :: as)

theorem Parts.onLine (hOne : Movable move One) (h : Parts One us as) (line : Nat) :
    Parts One (us.map (onLine line)) (as.map (move line)) := by
  induction h with
  | nil => exact .nil
  | @cons w a c us as ha hc _ ih =>
    obtain ⟨w, rfl, -, -, hmove⟩ := hOne ha
    have hmoved := hmove line []
    rw [append_nil] at hmoved ⊢
    rw [map_append, map_cons, map_cons]
    exact .cons hmoved hc ih

theorem Parts.length_le (h : Parts One us as) : as.length ≤ us.length := by
  induction h with
  | nil => exact Nat.le_refl _
  | cons _ _ _ ih =>
    simp only [length_append, length_cons]
    omega

theorem Parts.inArguments (hOne : Movable move One) (h : Parts One us as) :
    ∀ t ∈ us, inArguments t = true := by
  induction h with
  | nil => simp
  | @cons w a c us as ha hc _ ih =>
    obtain ⟨w, rfl, hw, -⟩ := hOne ha
    rw [append_nil]
    intro t ht
    rcases mem_append.mp ht with ht | ht
    · exact hw.all t ht
    · rcases mem_cons.mp ht with rfl | ht
      · simp [Form.inArguments, hc]
      · exact ih t ht

theorem mem_getLast?_append_cons {t c : Token} {x : List Token} (h : t ∈ (x ++ c :: us).getLast?) :
    t ∈ us.getLast? ∨ t = c := by
  rw [getLast?_append, getLast?_cons, Option.some_or] at h
  cases hlast : us.getLast? with
  | none => exact .inr (by simpa [hlast] using h.symm)
  | some u => exact .inl (by simpa [hlast] using h)

theorem Parts.getLast? (h : Parts One us as) : ∀ t ∈ us.getLast?, t.isPunct .comma = true := by
  induction h with
  | nil => simp
  | @cons w a c us as _ hc h ih =>
    intro t ht
    rcases mem_getLast?_append_cons ht with ht | rfl
    · exact ih t ht
    · exact hc

theorem exists_parts_cons {begins : Token → Bool} (hOne : Movable move One) {mid : List Token}
    {a₁ : α} (ha : One input a₁ mid) (h : Rounds begins One false mid as rest)
    (hmore : ∀ {before a after}, as = before ++ a :: after → ∃ us x y, Parts One us before ∧
      One x a y ∧ Rounds begins One false y after rest ∧
      ∃ c, c.isPunct .comma = true ∧ mid = c :: (us ++ x))
    {before : List α} {a : α} {after : List α} (has : a₁ :: as = before ++ a :: after) :
    ∃ us x y, Parts One us before ∧ One x a y ∧ Rounds begins One false y after rest ∧
      input = us ++ x := by
  cases before with
  | nil =>
    obtain ⟨rfl, rfl⟩ := cons.inj has
    exact ⟨[], input, mid, .nil, ha, h, rfl⟩
  | cons a₂ before =>
    obtain ⟨rfl, hrest⟩ := cons.inj has
    obtain ⟨us, x, y, hparts, hx, hy, c, hc, rfl⟩ := hmore hrest
    obtain ⟨w, rfl, -, hkeep, -⟩ := hOne ha
    have hw := hkeep []
    rw [append_nil] at hw
    exact ⟨w ++ c :: us, x, y, .cons hw hc hparts, hx, hy, by simp⟩

theorem Rounds.exists_parts {begins : Token → Bool} (hOne : Movable move One) {isFirst : Bool}
    (h : Rounds begins One isFirst input as rest) {before : List α} {a : α} {after : List α}
    (has : as = before ++ a :: after) :
    ∃ us x y, Parts One us before ∧ One x a y ∧ Rounds begins One false y after rest ∧
      if isFirst then input = us ++ x
      else ∃ c, c.isPunct .comma = true ∧ input = c :: (us ++ x) := by
  induction h generalizing before a after with
  | stop => simp at has
  | first ha h ih => exact exists_parts_cons hOne ha h (fun has => by simpa using ih has) has
  | more hc ha h ih =>
    obtain ⟨us, x, y, hparts, hx, hy, rfl⟩ :=
      exists_parts_cons hOne ha h (fun has => by simpa using ih has) has
    exact ⟨us, x, y, hparts, hx, hy, by simpa using hc⟩

/-! ### The front of a value -/

/-- What stands in front of a value in its argument, the label apart. -/
inductive ValueFront : List Token → Option (List Token) → Prop
  | single : ValueFront [] none
  | list {o : Token} {us vs : List Token} (ho : o.isPunct .openBracket = true)
      (h : Parts ValueToken us vs) : ValueFront (o :: us) (some vs)

/-- The tokens of an argument list in front of a value, with the whole arguments among them, the
label of the value's own argument, and the values in front of it if it stands in a list. -/
inductive Front : List Token → List Argument → Option Token → Option (List Token) → Prop
  | mk {parts : List Token} {before : List Argument} {label : Option Token} {us : List Token}
      {list : Option (List Token)} (hparts : Parts OneArgument parts before)
      (hlabel : ∀ l ∈ label, l.isKind .label = true) (hvalue : ValueFront us list) :
      Front (parts ++ (label.toList ++ us)) before label list

theorem OneValue.exists_front {value : ArgumentValue} (h : OneValue input value rest) {j : Nat}
    {v : Token} (hv : value.tokens[j]? = some v) :
    ∃ us vs, input = us ++ v :: vs ∧ ValueFront us (value.listFront j) := by
  cases h with
  | @single v' rest _ =>
    obtain rfl : v' = v := by
      cases j with
      | zero => exact Option.some.inj hv
      | succ j => cases hv
    exact ⟨[], rest, rfl, .single⟩
  | @list o c input vs rest ho h hc =>
    have hvs : vs = vs.take j ++ v :: vs.drop (j + 1) := by
      obtain ⟨hj, rfl⟩ := List.getElem?_eq_some_iff.mp (show vs[j]? = some v from hv)
      rw [← List.drop_eq_getElem_cons hj, List.take_append_drop]
    obtain ⟨us, x, y, hparts, ⟨-⟩, -, hinput⟩ := h.exists_parts ValueToken.movable hvs
    exact ⟨o :: us, y, by simpa using hinput, .list ho hparts⟩

theorem Arguments.exists_front (h : Arguments true input args rest) {after : List Argument}
    (hargs : args = before ++ a :: after) {j : Nat} {v : Token} (hv : a.value.tokens[j]? = some v) :
    ∃ us vs, input = us ++ v :: vs ∧ Front us before a.label (a.value.listFront j) := by
  obtain ⟨parts, x, y, hparts, hx, -, hinput⟩ := Rounds.exists_parts OneArgument.movable h hargs
  have hinput : input = parts ++ x := by simpa using hinput
  cases hx with
  | unlabeled hvalue =>
    obtain ⟨us, vs, rfl, hfront⟩ := hvalue.exists_front hv
    exact ⟨parts ++ us, vs, by simp [hinput], @Front.mk _ _ none _ _ hparts (by simp) hfront⟩
  | @labeled l _ _ _ hl hvalue =>
    obtain ⟨us, vs, rfl, hfront⟩ := hvalue.exists_front hv
    exact ⟨parts ++ l :: us, vs, by simp [hinput],
      @Front.mk _ _ (some l) _ _ hparts (by simpa using hl) hfront⟩

theorem Values.exists_tokens {isFirst : Bool} (h : Values isFirst input vs rest) :
    ∃ w, input = w ++ rest ∧ ∀ t ∈ w, t.isValue = true ∨ t.isPunct .comma = true := by
  induction h with
  | stop => exact ⟨[], rfl, by simp⟩
  | @first _ v _ _ _ ha _ ih =>
    obtain ⟨hv⟩ := ha
    obtain ⟨w, rfl, hw⟩ := ih
    exact ⟨v :: w, rfl, forall_mem_cons.mpr ⟨.inl hv, hw⟩⟩
  | @more c _ v _ _ _ hc ha _ ih =>
    obtain ⟨hv⟩ := ha
    obtain ⟨w, rfl, hw⟩ := ih
    exact ⟨c :: v :: w, rfl, forall_mem_cons.mpr ⟨.inr hc, forall_mem_cons.mpr ⟨.inl hv, hw⟩⟩⟩

theorem Arguments.exists_last (h : Arguments true input args []) (hargs : args ≠ []) :
    ∃ us t, input = us ++ [t] ∧ (t.isPunct .closeBracket = true ∨ t.isValue = true ∧
      ∃ before a, args = before ++ [a] ∧ a.value = .single t ∧ Front us before a.label none) := by
  obtain ⟨before, a, hargs⟩ := eq_nil_or_concat args |>.resolve_left hargs
  rw [concat_eq_append] at hargs
  obtain ⟨parts, x, y, hparts, hx, hrest, hinput⟩ :=
    Rounds.exists_parts OneArgument.movable h hargs
  obtain rfl : input = parts ++ x := by simpa using hinput
  cases hrest with
  | stop =>
  -- the value, with the label in front of it
  obtain ⟨x, label, value, rfl, hlabel, rfl, hvalue⟩ : ∃ x' label value,
      x = Option.toList label ++ x' ∧
      (∀ l ∈ label, l.isKind .label = true) ∧ a = ⟨label, value⟩ ∧ OneValue x' value [] := by
    cases hx with
    | unlabeled hvalue => exact ⟨x, none, _, rfl, by simp, rfl, hvalue⟩
    | labeled hl hvalue => exact ⟨_, some _, _, rfl, by simpa using hl, rfl, hvalue⟩
  cases hvalue with
  | @single v _ hv =>
    refine ⟨parts ++ label.toList, v, by simp, .inr ⟨hv, before, _, hargs, rfl, ?_⟩⟩
    simpa using Front.mk hparts hlabel .single
  | @list o c input vs _ ho h hc =>
    obtain ⟨w, rfl, -⟩ := Values.exists_tokens h
    exact ⟨parts ++ (label.toList ++ o :: w), c, by simp, .inl hc⟩

section Front

variable {list : Option (List Token)}

theorem ValueFront.onLine (h : ValueFront us list) (line : Nat) :
    ValueFront (us.map (onLine line)) (list.map (List.map (onLine line))) := by
  cases h with
  | single => exact .single
  | list ho h => exact .list ho (h.onLine ValueToken.movable line)

theorem Front.onLine (h : Front us before label list) (line : Nat) :
    Front (us.map (onLine line)) (before.map (Argument.onLine line))
      (label.map (onLine line)) (list.map (List.map (onLine line))) := by
  obtain ⟨hparts, hlabel, hvalue⟩ := h
  rw [map_append, map_append, ← Option.toList_map]
  refine .mk (hparts.onLine OneArgument.movable line) (fun l hl => ?_) (hvalue.onLine line)
  obtain ⟨l, hmem, rfl⟩ := Option.map_eq_some_iff.mp hl
  exact hlabel l hmem

theorem Front.inArguments (h : Front us before label list) : ∀ t ∈ us, inArguments t = true := by
  obtain ⟨hparts, hlabel, hvalue⟩ := h
  intro t ht
  rcases mem_append.mp ht with ht | ht
  · exact hparts.inArguments OneArgument.movable t ht
  · rcases mem_append.mp ht with ht | ht
    · simp [Form.inArguments, hlabel t (Option.mem_toList.mp ht)]
    · cases hvalue with
      | single => cases ht
      | list ho h =>
        rcases mem_cons.mp ht with rfl | ht
        · simp [Form.inArguments, ho]
        · exact h.inArguments ValueToken.movable t ht

theorem Front.getLast? (h : Front us before label list) : ∀ t ∈ us.getLast?,
    t.isPunct .comma = true ∨ t.isPunct .openBracket = true ∨
      t ∈ label ∧ t.isKind .label = true := by
  obtain ⟨hparts, hlabel, hvalue⟩ := h
  intro t ht
  cases hvalue with
  | single =>
    rw [append_nil] at ht
    cases label with
    | none =>
      rw [Option.toList_none, append_nil] at ht
      exact .inl (hparts.getLast? t ht)
    | some l =>
      rw [Option.toList_some, getLast?_concat] at ht
      cases ht
      exact .inr (.inr ⟨rfl, hlabel _ rfl⟩)
  | @list o us vs ho h =>
    rw [← append_assoc] at ht
    rcases mem_getLast?_append_cons ht with ht | rfl
    · exact .inl (h.getLast? t ht)
    · exact .inr (.inl ho)

end Front

/-! ### How a value is addressed -/

theorem Parts.isValue (h : Parts ValueToken us vs) :
    ∀ t ∈ us, t.isValue = true ∨ t.isPunct .comma = true := by
  induction h with
  | nil => simp
  | cons ha hc _ ih =>
    obtain ⟨hv⟩ := ha
    exact forall_mem_cons.mpr ⟨.inl hv, forall_mem_cons.mpr ⟨.inr hc, ih⟩⟩

end Form

namespace ArgumentPlace

variable (p : ArgumentPlace)

theorem step_of_isValue (h : t.isValue = true) : p.step t = p := by
  rw [isValue_iff, kind] at h
  unfold step
  cases hl : t.lexeme <;> rw [hl] at h <;> first | rfl | simp [Lexeme.kind, TokenKind.values] at h

theorem step_of_isLabel (h : t.isKind .label = true) :
    p.step t = { p with label := some t.text, labelUsed := true } := by
  rw [isKind_iff, kind] at h
  unfold step text
  cases hl : t.lexeme <;> rw [hl] at h <;> first | rfl | simp [Lexeme.kind] at h

theorem step_of_comma (h : t.isPunct .comma = true) : p.step t =
    if p.lists = 0 then { p with label := none, commas := p.commas + 1 } else p := by
  rw [step, isPunct_iff.mp h]

theorem step_of_openBracket (h : t.isPunct .openBracket = true) :
    p.step t = { p with lists := p.lists + 1 } := by
  rw [step, isPunct_iff.mp h]

theorem step_of_closeBracket (h : t.isPunct .closeBracket = true) (hp : p.lists = 1) :
    p.step t = { p with lists := 0, label := none } := by
  rw [step, isPunct_iff.mp h]
  simp [hp]

theorem foldl_step_inside {p : ArgumentPlace} (hp : p.lists ≠ 0) {us : List Token}
    (h : ∀ t ∈ us, t.isValue = true ∨ t.isPunct .comma = true) : us.foldl step p = p := by
  induction us with
  | nil => rfl
  | cons t us ih =>
    obtain ⟨ht, hus⟩ := forall_mem_cons.mp h
    rw [foldl_cons]
    rcases ht with ht | ht
    · rw [p.step_of_isValue ht, ih hus]
    · rw [p.step_of_comma ht, if_neg hp, ih hus]

open Form

theorem foldl_step_argument {p : ArgumentPlace} (hp : p.lists = 0) (h : OneArgument w a []) :
    ∃ label, w.foldl step p =
      ⟨0, label, p.labelUsed || a.label.isSome, p.commas⟩ := by
  have hvalue {p : ArgumentPlace} (hp : p.lists = 0) {w : List Token} {value : ArgumentValue}
      (h : OneValue w value []) : ∃ label, w.foldl step p = ⟨0, label, p.labelUsed, p.commas⟩ := by
    cases h with
    | single hv => exact ⟨p.label, by rw [foldl_cons, p.step_of_isValue hv, ← hp]; rfl⟩
    | @list o c _ _ _ ho h hc =>
      obtain ⟨w, rfl, hw⟩ := Values.exists_tokens h
      refine ⟨none, ?_⟩
      rw [foldl_cons, p.step_of_openBracket ho, foldl_append,
        foldl_step_inside (by simp) hw, foldl_cons, step_of_closeBracket _ hc (by simp [hp])]
      rfl
  cases h with
  | unlabeled h =>
    obtain ⟨label, hfold⟩ := hvalue hp h
    exact ⟨label, by rw [hfold, Option.isSome_none, Bool.or_false]⟩
  | labeled hl h =>
    rw [foldl_cons, p.step_of_isLabel hl]
    obtain ⟨label, hfold⟩ := hvalue (p := { p with label := some _, labelUsed := true }) hp h
    exact ⟨label, by rw [hfold, Option.isSome_some, Bool.or_true]⟩

theorem foldl_step_parts {p : ArgumentPlace} (hp : p.lists = 0) (hlabel : p.label = none)
    {us : List Token} (h : Parts OneArgument us before) : us.foldl step p =
      ⟨0, none, p.labelUsed || before.any (·.label.isSome), p.commas + before.length⟩ := by
  induction h generalizing p with
  | nil =>
    obtain ⟨lists, label, used, commas⟩ := p
    obtain rfl : lists = 0 := hp
    obtain rfl : label = none := hlabel
    simp
  | cons ha hc _ ih =>
    obtain ⟨label, hfold⟩ := foldl_step_argument hp ha
    rw [foldl_append, hfold, foldl_cons, step_of_comma _ hc, if_pos rfl, ih rfl rfl]
    simp only [any_cons, length_cons, Bool.or_assoc, Nat.add_assoc, Nat.add_comm 1]

theorem lists_argumentPlace {input : List Token} (h : Arguments true input args []) :
    (argumentPlace input).lists = 0 := by
  rcases eq_nil_or_concat args with rfl | ⟨before, a, hargs⟩
  · cases h
    rfl
  · rw [concat_eq_append] at hargs
    obtain ⟨parts, x, y, hparts, hx, hrest, hinput⟩ :=
      Rounds.exists_parts OneArgument.movable h hargs
    obtain rfl : input = parts ++ x := by simpa using hinput
    cases hrest
    rw [argumentPlace, foldl_append, foldl_step_parts rfl rfl hparts]
    obtain ⟨label, hfold⟩ := foldl_step_argument
      (show ArgumentPlace.lists ⟨0, none, _, _⟩ = 0 from rfl) hx
    rw [hfold]

end ArgumentPlace

namespace Form

variable {list : Option (List Token)}

theorem Front.argumentPlace_eq (h : Front us before label list) : argumentPlace us =
    ⟨list.toList.length, label.map text, before.any (·.label.isSome) || label.isSome,
      before.length⟩ := by
  obtain ⟨hparts, hlabel, hvalue⟩ := h
  rw [argumentPlace, foldl_append, foldl_step_parts rfl rfl hparts,
    foldl_append, Bool.false_or, Nat.zero_add]
  have hfold : label.toList.foldl ArgumentPlace.step
      ⟨0, none, before.any (·.label.isSome), before.length⟩ =
      ⟨0, label.map text, before.any (·.label.isSome) || label.isSome, before.length⟩ := by
    cases label with
    | none => simp
    | some l => simp [step_of_isLabel _ (hlabel l rfl)]
  rw [hfold]
  cases hvalue with
  | single => rfl
  | list ho h =>
    rw [foldl_cons, step_of_openBracket _ ho,
      foldl_step_inside (by simp) h.isValue]
    rfl

end Form

/-! ### The place of a value in its list -/

section CountValue

open Form

theorem countValue_of_isValue (h : t.isValue = true) (n : Nat) (outer : List Nat) :
    countValue (n :: outer) t = (n + 1) :: outer := by
  have hkind := kind_ne_punctuation_of_isValue h
  simp only [countValue, opens?_of_kind hkind, closes?_of_kind hkind, h, if_true]

theorem countValue_nil (h : t.opens? ≠ some .list) : countValue [] t = [] := by
  unfold countValue
  split <;> simp_all

theorem countValue_of_comma (h : t.isPunct .comma = true) (lists : List Nat) :
    countValue lists t = lists := by
  have hlexeme := isPunct_iff.mp h
  have hvalue : t.isValue = false := by rw [isValue, kind_of_isPunct h]; rfl
  cases lists <;> simp [countValue, opens?, closes?, hlexeme, hvalue]

theorem countValue_of_openBracket (h : t.isPunct .openBracket = true) (lists : List Nat) :
    countValue lists t = 0 :: lists := by
  simp only [countValue, opens?, isPunct_iff.mp h]

theorem countValue_of_closeBracket (h : t.isPunct .closeBracket = true) (lists : List Nat) :
    countValue lists t = lists.drop 1 := by
  simp only [countValue, opens?, closes?, isPunct_iff.mp h]

theorem foldl_countValue_inside (h : ∀ t ∈ w, t.isValue = true ∨ t.isPunct .comma = true) (n : Nat)
    (outer : List Nat) : ∃ m, w.foldl countValue (n :: outer) = m :: outer := by
  induction w generalizing n with
  | nil => exact ⟨n, rfl⟩
  | cons t w ih =>
    obtain ⟨ht, hw⟩ := forall_mem_cons.mp h
    rw [foldl_cons]
    rcases ht with ht | ht
    · rw [countValue_of_isValue ht]
      exact ih hw _
    · rw [countValue_of_comma ht]
      exact ih hw n

theorem Form.Parts.foldl_countValue {us : List Token} (h : Parts ValueToken us vs) (n : Nat) :
    us.foldl countValue [n] = [n + vs.length] := by
  induction h generalizing n with
  | nil => rfl
  | cons ha hc _ ih =>
    obtain ⟨hv⟩ := ha
    simp only [cons_append, nil_append, foldl_cons]
    rw [countValue_of_isValue hv, countValue_of_comma hc, ih, length_cons, Nat.add_assoc,
      Nat.add_comm 1]

theorem Form.OneArgument.foldl_countValue (h : OneArgument w a []) :
    w.foldl countValue [] = [] := by
  have hother {t : Token} (h : t.kind ≠ .punctuation) : countValue [] t = [] :=
    countValue_nil (by simp [opens?_of_kind h])
  have hvalue {w : List Token} {value : ArgumentValue} (h : OneValue w value []) :
      w.foldl countValue [] = [] := by
    cases h with
    | single hv => exact hother (kind_ne_punctuation_of_isValue hv)
    | list ho h hc =>
      obtain ⟨w, rfl, hw⟩ := Values.exists_tokens h
      obtain ⟨m, hfold⟩ := foldl_countValue_inside hw 0 []
      rw [foldl_cons, countValue_of_openBracket ho, foldl_append, hfold, foldl_cons,
        countValue_of_closeBracket hc]
      rfl
  cases h with
  | unlabeled h => exact hvalue h
  | labeled hl h =>
    rw [foldl_cons, hother (by simp [isKind_iff.mp hl])]
    exact hvalue h

theorem Form.Front.listIndex_eq {us : List Token} {label : Option Token}
    {list : Option (List Token)} (h : Front us before label list) {lead : List Token}
    (hlead : ∀ t ∈ lead, t.kind ≠ .punctuation) :
    listIndex (lead ++ us) = (list.map List.length).getD 0 := by
  have hother {ts : List Token} (hts : ∀ t ∈ ts, t.kind ≠ .punctuation) :
      ts.foldl countValue [] = [] := by
    induction ts with
    | nil => rfl
    | cons t ts ih =>
      obtain ⟨ht, hts⟩ := forall_mem_cons.mp hts
      rw [foldl_cons, countValue_nil (by simp [opens?_of_kind ht]), ih hts]
  have hwhole {parts : List Token} {before : List Argument} (h : Parts OneArgument parts before) :
      parts.foldl countValue [] = [] := by
    induction h with
    | nil => rfl
    | cons ha hc _ ih =>
      rw [foldl_append, ha.foldl_countValue, foldl_cons, countValue_of_comma hc, ih]
  obtain ⟨hparts, hlabel, hvalue⟩ := h
  have hlabel' : ∀ t ∈ label.toList, t.kind ≠ .punctuation := fun t ht => by
    simp [isKind_iff.mp (hlabel t (Option.mem_toList.mp ht))]
  rw [listIndex, foldl_append, hother hlead, foldl_append, hwhole hparts,
    foldl_append, hother hlabel']
  cases hvalue with
  | single => rfl
  | list ho h =>
    rw [foldl_cons, countValue_of_openBracket ho, h.foldl_countValue, Nat.zero_add]
    rfl

end CountValue

end CommandText
