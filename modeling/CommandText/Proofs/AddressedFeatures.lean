import CommandText.Proofs.ArgumentSlots
import CommandText.Proofs.SchemaTables

/-!
# The features that arguments address

An argument addresses a feature of a class by its label, or as the argument that stands at the place
of the feature among those without a label. Its tokens denote values of the feature, each by itself.
Where no two arguments address the same feature, each feature holds the values of the one argument
that addresses it, wherever that argument stands.
-/

namespace CommandText

open List FeatureKind

namespace Schema

variable {s : Schema} {c : ClassId}
variable {a : Argument} {f : FeatureId} {arguments : List Argument} {position : Nat}

/-! ### Values of tokens -/

/-- A token denotes a value of a feature of some kind. -/
inductive Denotes (s : Schema) : FeatureKind → Lexeme → Value → Prop
  | generic {k : FeatureKind} {text : String} (h : s.generics = true) :
      Denotes s k (.generic text) (.generic text)
  | proxy {target : ClassId} {l : Lexeme} (h : l.kind = .reference ∨ l.kind = .identifier) :
      Denotes s (.reference target) l (.proxy l.text)
  | enum {e : EnumId} {l : Lexeme} (h : l.kind = .identifier ∨ l.kind = .string)
      (hliteral : l.text ∈ (s.enumAt e).literals) : Denotes s (.data (.enum e)) l (.enum l.text)
  | string {l : Lexeme} (h : l.kind ∈ [.string, .identifier, .integer, .float]) :
      Denotes s (.data .string) l (.string l.text)
  | integer {d : DataType} {n : Int} (h : d = .integer ∨ d = .any) :
      Denotes s (.data d) (.integer n) (.integer n)
  | float {d : DataType} {x : Float} (h : d = .float ∨ d = .any) :
      Denotes s (.data d) (.float x) (.float x)
  | long {d : DataType} {x : LongFloat} (h : d = .float ∨ d = .any) :
      Denotes s (.data d) (.long x) (.long x)
  /-- An integer as a floating-point number. -/
  | whole {n : Int} : Denotes s (.data .float) (.integer n) (.float (Float.ofInt n))
  | boolean {d : DataType} {b : Bool} (h : d = .boolean ∨ d = .any) :
      Denotes s (.data d) (.boolean b) (.boolean b)
  | text {l : Lexeme} (h : l.kind = .identifier ∨ l.kind = .string) :
      Denotes s (.data .any) l (.string l.text)

theorem denotes_of_convert {f : Feature} {t : Token} {v : Value}
    (hkind : t.kind ∈ f.kind.tokenKinds) (h : s.convert f t = .ok v) :
    s.Denotes f.kind t.lexeme v := by
  rw [convert] at h
  rw [Token.kind] at hkind
  cases hf : f.kind with
  | reference target =>
    rw [hf] at h hkind
    cases h
    exact .proxy (by simpa [tokenKinds] using hkind)
  | containment target =>
    rw [hf] at h
    cases h
  | data d =>
    rw [hf] at h hkind
    cases d with
    | enum e =>
      simp only at h
      split at h
      · next hliteral =>
        cases h
        exact .enum (by simpa [tokenKinds] using hkind)
          (contains_iff_mem.mp hliteral)
      · cases h
    | string =>
      cases h
      exact .string hkind
    | float =>
      simp only at h
      split at h
      · next n hn =>
        cases h
        rw [hn]
        exact .whole
      · next hinteger =>
        cases h
        cases hl : t.lexeme with
        | float x => exact .float (.inl rfl)
        | long x => exact .long (.inl rfl)
        | integer n => exact absurd hl (hinteger n)
        | _ => simp [hl, Lexeme.kind, tokenKinds] at hkind
    | integer =>
      cases h
      cases hl : t.lexeme with
      | integer n => exact .integer (.inl rfl)
      | _ => simp [hl, Lexeme.kind, tokenKinds] at hkind
    | boolean =>
      cases h
      cases hl : t.lexeme with
      | boolean b => exact .boolean (.inl rfl)
      | _ => simp [hl, Lexeme.kind, tokenKinds] at hkind
    | any =>
      cases h
      cases hl : t.lexeme with
      | integer n => exact .integer (.inr rfl)
      | float x => exact .float (.inr rfl)
      | long x => exact .long (.inr rfl)
      | boolean b => exact .boolean (.inr rfl)
      | identifier text => exact .text (.inl rfl)
      | string text => exact .text (.inr rfl)
      | _ => simp [hl, Lexeme.kind, tokenKinds] at hkind

theorem accept_eq_ok_iff {f : Feature} {t : Token} {v : Value} :
    s.accept f t = .ok v ↔ s.Denotes f.kind t.lexeme v := by
  constructor
  · intro h
    rw [accept] at h
    split at h
    · next hgeneric =>
      split at h
      · next hgenerics =>
        cases h
        rw [Token.isKind, Token.kind] at hgeneric
        rw [Token.text]
        cases hl : t.lexeme with
        | generic text => exact .generic hgenerics
        | _ => simp [hl, Lexeme.kind] at hgeneric
      · cases h
    · split at h
      · next hkind => exact denotes_of_convert (by simpa using hkind) h
      · cases h
  · intro h
    rw [accept, convert, Token.isKind, Token.kind, Token.text]
    generalize f.kind = k at h ⊢
    generalize t.lexeme = l at h ⊢
    cases h with
    | generic hgenerics => simp [Lexeme.kind, Lexeme.text, hgenerics]
    | proxy h => rcases h with h | h <;> simp [h, tokenKinds]
    | text h =>
      cases l with
      | identifier | string => rfl
      | _ => simp [Lexeme.kind] at h
    | enum h hliteral =>
      rcases h with h | h <;> simp [h, tokenKinds, hliteral]
    | string h =>
      cases l with
      | string | identifier | integer | float | long => rfl
      | _ => simp [Lexeme.kind] at h
    | integer h | float h | long h | boolean h =>
      rcases h with rfl | rfl <;> rfl
    | whole => rfl

/-! ### Features of arguments -/

/-- The argument at a place of a list addresses a feature of a class: by its label, or because as
many arguments without a label stand in front of it as features in front of the feature, among those
that are given by position. -/
structure Addresses (s : Schema) (c : ClassId) (arguments : List Argument) (i : Nat)
    (f : FeatureId) : Prop where
  mem : f ∈ s.arguments c
  place : ∃ a, arguments[i]? = some a ∧
    ((∃ label, a.label = some label ∧ label.text = (s.featureAt f).name) ∨
      a.label = none ∧
        (s.unlabeledArguments c)[(arguments.take i).countP (·.label.isNone)]? = some f)

/-- Arguments with what they address, or why they address nothing. `position` counts the unlabeled
ones in front of them. -/
def destinations (s : Schema) (c : ClassId) :
    Nat → List Argument → List (Except Fault FeatureId × Argument)
  | _, [] => []
  | position, a :: rest =>
    (s.address c position a.label, a) ::
      s.destinations c (if a.label.isNone then position + 1 else position) rest

/-- The features that arguments address, in order. -/
def addressed (s : Schema) (c : ClassId) (position : Nat) (arguments : List Argument) :
    List FeatureId :=
  (s.destinations c position arguments).filterMap (·.1.toOption)

theorem addressed_of_error {rest : List Argument} {fault : Fault}
    (h : s.address c position a.label = .error fault) :
    s.addressed c position (a :: rest) =
      s.addressed c (if a.label.isNone then position + 1 else position) rest := by
  rw [addressed, destinations, h]
  rfl

theorem addressed_of_ok {rest : List Argument} (h : s.address c position a.label = .ok f) :
    s.addressed c position (a :: rest) =
      f :: s.addressed c (if a.label.isNone then position + 1 else position) rest := by
  rw [addressed, destinations, h]
  rfl

theorem getElem?_destinations (s : Schema) (c : ClassId) (position : Nat)
    (arguments : List Argument) (i : Nat) :
    (s.destinations c position arguments)[i]? = arguments[i]?.map fun a =>
      (s.address c (position + (arguments.take i).countP (·.label.isNone)) a.label, a) := by
  induction arguments generalizing position i with
  | nil => rfl
  | cons a rest ih =>
    cases i with
    | zero => rfl
    | succ i =>
      rw [destinations, getElem?_cons_succ, ih, getElem?_cons_succ, take_succ_cons,
        countP_cons]
      split <;> simp only [Nat.add_assoc, Nat.add_comm 1, Nat.add_zero]

theorem Accepted.address_eq_ok_iff (hs : s.Accepted) {label : Option Token} :
    s.address c position label = .ok f ↔ f ∈ s.arguments c ∧
      ((∃ l, label = some l ∧ l.text = (s.featureAt f).name) ∨
        label = none ∧ (s.unlabeledArguments c)[position]? = some f) := by
  constructor
  · intro h
    refine ⟨hs.mem_of_address h, ?_⟩
    cases label with
    | none =>
      simp only [address] at h
      split at h
      · next hposition =>
        cases h
        exact .inr ⟨rfl, hposition⟩
      · cases h
    | some l =>
      simp only [address] at h
      split at h
      · cases h
      · next g hg =>
        split at h
        · cases h
        · cases h
          have hname : (s.featureAt f).name = l.text := by simpa using find?_some hg
          exact .inl ⟨l, rfl, hname.symm⟩
  · rintro ⟨hf, ⟨l, rfl, htext⟩ | ⟨rfl, hposition⟩⟩
    · obtain ⟨hmem, hkind⟩ := s.mem_arguments_iff.mp hf
      have hnamed : s.featureNamed? c l.text = some f :=
        (Lineage.named?_eq_some_iff (hs.nodup_names c)).mpr ⟨hmem, htext.symm⟩
      simp only [address, hnamed, hkind, Bool.false_eq_true, if_false]
    · simp only [address, hposition]

theorem Accepted.addresses_iff (hs : s.Accepted) {i : Nat} :
    s.Addresses c arguments i f ↔ ∃ a, (s.destinations c 0 arguments)[i]? = some (.ok f, a) := by
  simp only [getElem?_destinations, Option.map_eq_some_iff, Prod.mk.injEq, Nat.zero_add,
    hs.address_eq_ok_iff]
  constructor
  · rintro ⟨hf, a, ha, hplace⟩
    exact ⟨a, a, ha, ⟨hf, hplace⟩, rfl⟩
  · rintro ⟨-, a, ha, ⟨hf, hplace⟩, rfl⟩
    exact ⟨hf, a, ha, hplace⟩

theorem toOption_eq_some_iff {e : Except Fault FeatureId} : e.toOption = some f ↔ e = .ok f := by
  cases e <;> simp [Except.toOption]

theorem Accepted.nodup_addressed_iff (hs : s.Accepted) :
    (s.addressed c 0 arguments).Nodup ↔
      ∀ f i j, s.Addresses c arguments i f → s.Addresses c arguments j f → i = j := by
  rw [addressed, List.Nodup, pairwise_filterMap, pairwise_iff_getElem]
  simp only [toOption_eq_some_iff]
  constructor
  · intro h f i j hi hj
    obtain ⟨a, hi⟩ := hs.addresses_iff.mp hi
    obtain ⟨a', hj⟩ := hs.addresses_iff.mp hj
    obtain ⟨hi', hi⟩ := List.getElem?_eq_some_iff.mp hi
    obtain ⟨hj', hj⟩ := List.getElem?_eq_some_iff.mp hj
    rcases Nat.lt_trichotomy i j with hlt | heq | hlt
    · exact absurd rfl (h i j hi' hj' hlt f (by rw [hi]) f (by rw [hj]))
    · exact heq
    · exact absurd rfl (h j i hj' hi' hlt f (by rw [hj]) f (by rw [hi]))
  · rintro h i j hi hj hlt f hf g hg rfl
    have hplace {k : Nat} (hk : k < (s.destinations c 0 arguments).length)
        (hf : (s.destinations c 0 arguments)[k].1 = .ok f) : s.Addresses c arguments k f :=
      hs.addresses_iff.mpr ⟨(s.destinations c 0 arguments)[k].2, by
        rw [getElem?_eq_getElem hk, ← hf]⟩
    exact Nat.ne_of_lt hlt (h f i j (hplace hi hf) (hplace hj hg))

/-! ### Values by features -/

theorem get_argumentSlots_of_nodup {given : List FeatureId}
    (hnodup : (given ++ s.addressed c position arguments).Nodup) (slots : Slots) (f : FeatureId) :
    (s.argumentSlots c position given arguments slots).get f = slots.get f ++
      ((s.destinations c position arguments).filter (·.1.toOption = some f)).flatMap
        fun d => s.acceptedValues f d.2.value.tokens := by
  induction arguments generalizing position given slots with
  | nil => simp [argumentSlots, destinations]
  | cons a rest ih =>
    cases haddress : s.address c position a.label with
    | error fault =>
      rw [addressed_of_error haddress] at hnodup
      rw [argumentSlots_of_error haddress, ih hnodup, destinations, haddress,
        filter_cons_of_neg (by simp [Except.toOption])]
    | ok g =>
      rw [addressed_of_ok haddress, nodup_middle] at hnodup
      have hnew : g ∉ given := fun hg => (nodup_cons.mp hnodup).1 (mem_append_left _ hg)
      rw [← cons_append] at hnodup
      rw [argumentSlots_of_new haddress (by simpa using hnew), Function.comp,
        ih hnodup, get_storeValues, destinations, haddress]
      by_cases hfg : f = g
      · subst hfg
        rw [if_pos rfl, filter_cons_of_pos (by simp [Except.toOption]), flatMap_cons,
          append_assoc]
      · rw [if_neg hfg, filter_cons_of_neg (by simp [Except.toOption, Ne.symm hfg])]

theorem filter_toOption_eq_nil {ds : List (Except Fault FeatureId × Argument)}
    (h : ∀ a, (.ok f, a) ∉ ds) : ds.filter (·.1.toOption = some f) = [] := by
  rw [filter_eq_nil_iff]
  rintro ⟨e, a⟩ hd hf
  obtain rfl := toOption_eq_some_iff.mp (of_decide_eq_true hf)
  exact h a hd

theorem filter_destinations_eq_singleton (hnodup : (s.addressed c position arguments).Nodup)
    (h : (.ok f, a) ∈ s.destinations c position arguments) :
    (s.destinations c position arguments).filter (·.1.toOption = some f) = [(.ok f, a)] := by
  obtain ⟨before, after, hsplit⟩ := append_of_mem h
  have hself : (Except.ok f : Except Fault FeatureId).toOption = some f := rfl
  rw [addressed, hsplit, filterMap_append, filterMap_cons, hself, nodup_middle,
    nodup_cons, mem_append, not_or] at hnodup
  obtain ⟨⟨hbefore, hafter⟩, -⟩ := hnodup
  have hnone {ds : List (Except Fault FeatureId × Argument)}
      (hds : f ∉ ds.filterMap (·.1.toOption)) : ds.filter (·.1.toOption = some f) = [] :=
    filter_toOption_eq_nil fun a ha => hds (mem_filterMap.mpr ⟨_, ha, hself⟩)
  rw [hsplit, filter_append, filter_cons_of_pos (by simp [hself]), hnone hbefore,
    hnone hafter, nil_append]

theorem get_argumentSlots_of_mem_destinations (hnodup : (s.addressed c 0 arguments).Nodup)
    (h : (.ok f, a) ∈ s.destinations c 0 arguments) :
    (s.argumentSlots c 0 [] arguments []).get f = s.acceptedValues f a.value.tokens := by
  rw [get_argumentSlots_of_nodup (by rwa [nil_append]),
    filter_destinations_eq_singleton hnodup h, flatMap_singleton]
  rfl

theorem get_argumentSlots_of_not_addressed (hnodup : (s.addressed c 0 arguments).Nodup)
    (h : ∀ a, (.ok f, a) ∉ s.destinations c 0 arguments) :
    (s.argumentSlots c 0 [] arguments []).get f = [] := by
  rw [get_argumentSlots_of_nodup (by rwa [nil_append]), filter_toOption_eq_nil h]
  rfl

end Schema

/-- Parcels with a name and a weight, which are on their way to others and may contain some. -/
def parcels : SchemaDefinition where
  lineAttribute := some "row"
  classes := [{ name := "Parcel", unlabeled := some ["name", "weight"], features := [
    { name := "name", sort := .string },
    { name := "weight", sort := .integer },
    { name := "route", sort := .reference, target := some "Parcel", many := true },
    { name := "fragile", sort := .boolean },
    { name := "row", sort := .integer },
    { name := "inner", sort := .containment, target := some "Parcel", many := true }] }]

end CommandText
