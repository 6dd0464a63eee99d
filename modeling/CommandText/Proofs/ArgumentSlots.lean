import CommandText.Binding.Arguments
import CommandText.Proofs.ModelUpdates
import CommandText.Proofs.SchemaFeatures

/-!
# The slots that arguments fill

Binding the arguments of a statement fills the slots of one element and does nothing else to the
model. Which values it stores is a function of the class and the arguments alone, and each of them
is of the kind that its feature holds.
-/

namespace CommandText

open List Schema

variable {c : ClassId} {f : FeatureId}

/-! ### Values that fit -/

namespace Schema

variable (s : Schema)

/-- Whether a feature of some kind may hold a value. -/
def takes : FeatureKind → Value → Bool
  | .containment _, .element _ => true
  | .containment _, _ => false
  | _, .generic _ => s.generics
  | .reference _, .proxy _ => true
  | .data (.enum e), .enum literal => (s.enumAt e).literals.contains literal
  | .data .string, .string _ => true
  | .data .integer, .integer _ => true
  | .data .float, .float _ | .data .float, .long _ => true
  | .data .boolean, .boolean _ => true
  | .data .any, .string _ | .data .any, .integer _ | .data .any, .float _ | .data .any, .long _
  | .data .any, .boolean _ => true
  | _, _ => false

/-- A feature of a class and values that it may hold, one at most unless it holds many. -/
structure Holds (c : ClassId) (f : FeatureId) (vs : List Value) : Prop where
  mem : f ∈ s.featuresOf c
  single : (s.featureAt f).many = false → vs.length ≤ 1
  takes : ∀ v ∈ vs, s.takes (s.featureAt f).kind v = true

theorem takes_literal {d : DataType} (henum : ∀ e, d ≠ .enum e) {l : Lexeme}
    (hkind : l.kind ∈ (FeatureKind.data d).tokenKinds)
    (hstring : d ≠ .string) (hfloat : ∀ n, d = .float → l ≠ .integer n) :
    s.takes (.data d) l.literal = true := by
  cases d with
  | enum e => exact absurd rfl (henum e)
  | string => exact absurd rfl hstring
  | float =>
    cases l with
    | integer n => exact absurd rfl (hfloat n rfl)
    | float | long => rfl
    | _ => simp [FeatureKind.tokenKinds, Lexeme.kind] at hkind
  | integer | boolean | any =>
    cases l <;> simp [FeatureKind.tokenKinds, Lexeme.kind] at hkind <;> rfl

theorem takes_of_convert {f : Feature} {t : Token} (hkind : t.kind ∈ f.kind.tokenKinds) {v : Value}
    (h : s.convert f t = .ok v) : s.takes f.kind v = true := by
  rw [convert] at h
  cases hf : f.kind with
  | reference c =>
    rw [hf] at h
    cases h
    rfl
  | containment c =>
    rw [hf] at h
    cases h
  | data d =>
    rw [hf] at h hkind
    cases d with
    | enum e =>
      simp only at h
      split at h
      · next hliteral =>
        cases h
        exact hliteral
      · cases h
    | string =>
      cases h
      rfl
    | float =>
      simp only at h
      split at h
      · cases h
        rfl
      · next hinteger =>
        cases h
        exact s.takes_literal (by simp) hkind (by simp) (fun n _ => hinteger n)
    | integer | boolean | any =>
      cases h
      exact s.takes_literal (by simp) hkind (by simp) (by simp)

theorem takes_of_accept {f : Feature} {t : Token} (hf : f.isContainment = false) {v : Value}
    (h : s.accept f t = .ok v) : s.takes f.kind v = true := by
  rw [accept] at h
  split at h
  · split at h
    · next hgenerics =>
      cases h
      cases hkind : f.kind with
      | containment c => simp [Feature.isContainment, hkind] at hf
      | reference c => exact hgenerics
      | data d => cases d <;> exact hgenerics
    · cases h
  · split at h
    · next hkinds => exact s.takes_of_convert (by simpa using hkinds) h
    · cases h

theorem mem_arguments_iff :
    f ∈ s.arguments c ↔ f ∈ s.featuresOf c ∧ (s.featureAt f).isContainment = false := by
  simp [arguments]

theorem Accepted.mem_of_address {s : Schema} (h : s.Accepted) {position : Nat}
    {label : Option Token} (hf : s.address c position label = .ok f) : f ∈ s.arguments c := by
  cases label with
  | none =>
    simp only [address] at hf
    split at hf
    · next hposition =>
      cases hf
      exact h.mem_arguments (mem_of_getElem? hposition)
    · cases hf
  | some label =>
    simp only [address] at hf
    split at hf
    · cases hf
    · next g hnamed =>
      split at hf
      · cases hf
      · next hkind =>
        cases hf
        exact s.mem_arguments_iff.mpr ⟨mem_of_find?_eq_some hnamed, by simpa using hkind⟩

/-! ### Filling slots -/

/-- The slots with the value of a token added. -/
def storeValue (f : FeatureId) (slots : Slots) (t : Token) : Slots :=
  match s.accept (s.featureAt f) t with
  | .error _ => slots
  | .ok v => slots.add f v

/-- The slots with the values of one argument added. -/
def storeValues (f : FeatureId) (tokens : List Token) (slots : Slots) : Slots :=
  if tokens.length > 1 && !(s.featureAt f).many then slots else tokens.foldl (s.storeValue f) slots

/-- The slots as arguments fill them, each feature at most once. -/
def argumentSlots (c : ClassId) : Nat → List FeatureId → List Argument → Slots → Slots
  | _, _, [], slots => slots
  | position, given, a :: rest, slots =>
    let next := if a.label.isNone then position + 1 else position
    match s.address c position a.label with
    | .error _ => argumentSlots c next given rest slots
    | .ok f =>
      if given.contains f then argumentSlots c next given rest slots
      else argumentSlots c next (f :: given) rest (s.storeValues f a.value.tokens slots)

/-- The values that a feature accepts of one argument. -/
def acceptedValues (f : FeatureId) (tokens : List Token) : List Value :=
  if tokens.length > 1 && !(s.featureAt f).many then []
  else tokens.filterMap fun t => (s.accept (s.featureAt f) t).toOption

theorem get_storeValues (f : FeatureId) (tokens : List Token) (slots : Slots) (g : FeatureId) :
    (s.storeValues f tokens slots).get g =
      if g = f then slots.get f ++ s.acceptedValues f tokens else slots.get g := by
  unfold storeValues acceptedValues
  split
  · split
    · next h => simp [h]
    · rfl
  · clear * -
    induction tokens generalizing slots with
    | nil =>
      split
      · next h => simp [h]
      · rfl
    | cons t tokens ih =>
      rw [foldl_cons, ih, storeValue]
      cases haccept : s.accept (s.featureAt f) t with
      | error fault => simp [haccept, Except.toOption]
      | ok v =>
        split
        · simp [haccept, Except.toOption, Slots.add]
        · next h => exact Slots.get_put_of_ne h _ _

theorem holds_acceptedValues (hf : f ∈ s.arguments c) (tokens : List Token) :
    s.Holds c f (s.acceptedValues f tokens) := by
  obtain ⟨hmem, hkind⟩ := s.mem_arguments_iff.mp hf
  refine ⟨hmem, fun hsingle => ?_, fun v hv => ?_⟩
  · rw [acceptedValues]
    split
    · simp
    · next h =>
      have hlength : tokens.length ≤ 1 := by simpa [hsingle] using h
      exact Nat.le_trans (length_filterMap_le _ _) hlength
  · rw [acceptedValues] at hv
    split at hv
    · cases hv
    · obtain ⟨t, -, ht⟩ := mem_filterMap.mp hv
      cases haccept : s.accept (s.featureAt f) t with
      | error fault => simp [haccept, Except.toOption] at ht
      | ok v' =>
        obtain rfl : v' = v := by simpa [haccept, Except.toOption] using ht
        exact s.takes_of_accept hkind haccept

section ArgumentSlots

variable {s} {c : ClassId} {position : Nat} {given : List FeatureId} {a : Argument}
  {rest : List Argument}

theorem argumentSlots_of_error {fault : Fault} (h : s.address c position a.label = .error fault) :
    s.argumentSlots c position given (a :: rest) =
      s.argumentSlots c (if a.label.isNone then position + 1 else position) given rest := by
  funext slots
  simp only [argumentSlots, h]

theorem argumentSlots_of_given (h : s.address c position a.label = .ok f)
    (hgiven : given.contains f = true) : s.argumentSlots c position given (a :: rest) =
      s.argumentSlots c (if a.label.isNone then position + 1 else position) given rest := by
  funext slots
  simp only [argumentSlots, h, hgiven, if_true]

theorem argumentSlots_of_new (h : s.address c position a.label = .ok f)
    (hgiven : given.contains f ≠ true) : s.argumentSlots c position given (a :: rest) =
      s.argumentSlots c (if a.label.isNone then position + 1 else position) (f :: given) rest ∘
        s.storeValues f a.value.tokens := by
  funext slots
  simp only [argumentSlots, h, hgiven, if_false, Function.comp, Bool.false_eq_true]

/-- Slots that hold only what the features of a class take. -/
def Fits (s : Schema) (c : ClassId) (slots : Slots) : Prop :=
  ∀ f, slots.get f ≠ [] → s.Holds c f (slots.get f)

theorem Accepted.get_argumentSlots (hs : s.Accepted) {g : FeatureId} (hg : g ∉ s.arguments c)
    (arguments : List Argument) (slots : Slots) :
    (s.argumentSlots c position given arguments slots).get g = slots.get g := by
  induction arguments generalizing position given slots with
  | nil => rfl
  | cons a rest ih =>
    cases haddress : s.address c position a.label with
    | error fault => rw [argumentSlots_of_error haddress, ih]
    | ok f =>
      by_cases hgiven : given.contains f = true
      · rw [argumentSlots_of_given haddress hgiven, ih]
      · rw [argumentSlots_of_new haddress hgiven, Function.comp, ih, get_storeValues, if_neg]
        rintro rfl
        exact hg (hs.mem_of_address haddress)

theorem Accepted.fits_argumentSlots (hs : s.Accepted) (arguments : List Argument) {slots : Slots}
    (hfits : s.Fits c slots) (hempty : ∀ f ∈ s.arguments c, f ∉ given → slots.get f = []) :
    s.Fits c (s.argumentSlots c position given arguments slots) := by
  induction arguments generalizing position given slots with
  | nil => exact hfits
  | cons a rest ih =>
    cases haddress : s.address c position a.label with
    | error fault =>
      rw [argumentSlots_of_error haddress]
      exact ih hfits hempty
    | ok f =>
      have hf : f ∈ s.arguments c := hs.mem_of_address haddress
      by_cases hgiven : given.contains f = true
      · rw [argumentSlots_of_given haddress hgiven]
        exact ih hfits hempty
      · rw [argumentSlots_of_new haddress hgiven]
        have hnew : slots.get f = [] := hempty f hf (by simpa using hgiven)
        refine ih (fun g hg => ?_) fun g hg hne => ?_
        · rw [get_storeValues] at hg ⊢
          split
          · next h =>
            rw [h, hnew]
            exact s.holds_acceptedValues hf _
          · next h =>
            rw [if_neg h] at hg
            exact hfits g hg
        · rw [mem_cons, not_or] at hne
          rw [get_storeValues, if_neg hne.1]
          exact hempty g hg hne.2

end ArgumentSlots

end Schema

namespace BuildM

variable {τ : Type} (s : Schema) (id : ElementId)

theorem model_bindValue (f : FeatureId) (t : Token) (b : Building τ) :
    (bindValue s id f t b).2.model = b.model.fill id (s.storeValue f · t) := by
  unfold bindValue storeValue
  cases s.accept (s.featureAt f) t with
  | error fault => exact (b.model.fill_id id).symm
  | ok v =>
    refine Eq.trans ?_ (b.model.addValue_eq_fill id f v)
    cases v <;> rfl

theorem model_bindValues (f : FeatureId) (tokens : List Token) (line : Nat) (b : Building τ) :
    (bindValues s id f tokens line b).2.model = b.model.fill id (s.storeValues f tokens) := by
  unfold bindValues storeValues
  split
  · exact (b.model.fill_id id).symm
  · clear * -
    induction tokens generalizing b with
    | nil => exact (b.model.fill_id id).symm
    | cons t tokens ih =>
      change (tokens.forM (bindValue s id f) (bindValue s id f t b).2).2.model = _
      rw [ih, model_bindValue, Model.fill_fill]
      rfl

theorem model_bindRest (c : ClassId) (line : Nat) (position : Nat) (given : List FeatureId)
    (arguments : List Argument) (b : Building τ) :
    (bindRest s id c line position given arguments b).2.model =
      b.model.fill id (s.argumentSlots c position given arguments) := by
  induction arguments generalizing position given b with
  | nil => exact (b.model.fill_id id).symm
  | cons a rest ih =>
    unfold bindRest
    cases haddress : s.address c position a.label with
    | error fault =>
      rw [argumentSlots_of_error haddress]
      exact ih _ _ _
    | ok f =>
      simp only
      split
      · next hgiven =>
        rw [argumentSlots_of_given haddress hgiven]
        exact ih _ _ _
      · next hgiven =>
        rw [argumentSlots_of_new haddress hgiven, ← Model.fill_fill,
          ← model_bindValues s id f a.value.tokens (a.lineOr line) b]
        exact ih _ _ _

end BuildM

end CommandText
