import CommandText.Proofs.ArgumentEffects

/-!
# The order of arguments

Arguments with a label may stand anywhere: moving them changes nothing that is bound, as long as
those without a label stay in their order and no two arguments address the same feature. The loop
that binds arguments counts the unlabeled ones and remembers what has been given, so its order
matters in general; but under these conditions each argument keeps its feature and adds the same
wherever it stands.
-/

namespace CommandText

open List

namespace Schema

variable {s : Schema} {c : ClassId} {arguments arguments' : List Argument}

theorem address_some (label : Token) (position : Nat) :
    s.address c position (some label) = s.address c 0 (some label) := rfl

theorem destinations_perm_append (s : Schema) (c : ClassId) (position : Nat)
    (arguments : List Argument) :
    (s.destinations c position arguments).Perm
      (s.destinations c position (arguments.filter (·.label.isNone)) ++
        (arguments.filter (·.label.isSome)).map fun a => (s.address c 0 a.label, a)) := by
  induction arguments generalizing position with
  | nil => exact .nil
  | cons a rest ih =>
    rw [destinations, filter_cons, filter_cons]
    cases hlabel : a.label with
    | none =>
      simp only [Option.isNone_none, Option.isSome_none, if_true, if_false, Bool.false_eq_true]
      rw [destinations, hlabel]
      exact (ih (position + 1)).cons _
    | some label =>
      simp only [Option.isNone_some, Option.isSome_some, if_true, if_false, Bool.false_eq_true]
      rw [map_cons, hlabel, address_some]
      exact ((ih position).cons _).trans perm_middle.symm

theorem perm_destinations (hperm : arguments.Perm arguments')
    (horder : arguments.filter (·.label.isNone) = arguments'.filter (·.label.isNone)) :
    (s.destinations c 0 arguments).Perm (s.destinations c 0 arguments') := by
  refine (s.destinations_perm_append c 0 arguments).trans ?_
  refine List.Perm.trans ?_ (s.destinations_perm_append c 0 arguments').symm
  rw [horder]
  exact ((hperm.filter _).map _).append_left _

theorem filter_destinations_of_perm (hnodup : (s.addressed c 0 arguments).Nodup)
    (hperm : (s.destinations c 0 arguments).Perm (s.destinations c 0 arguments')) (f : FeatureId) :
    (s.destinations c 0 arguments).filter (·.1.toOption = some f) =
      (s.destinations c 0 arguments').filter (·.1.toOption = some f) := by
  have hfilter := hperm.filter (·.1.toOption = some f)
  rcases hcase : (s.destinations c 0 arguments).filter (·.1.toOption = some f) with _ | ⟨⟨e, a⟩, ds⟩
  · rw [hcase] at hfilter ⊢
    exact hfilter.nil_eq
  · -- an argument that addresses the feature is the only one
    have hmem : (e, a) ∈ (s.destinations c 0 arguments).filter (·.1.toOption = some f) := by
      rw [hcase]
      exact mem_cons_self
    obtain ⟨hmem, he⟩ := mem_filter.mp hmem
    obtain rfl := toOption_eq_some_iff.mp (of_decide_eq_true he)
    rw [filter_destinations_eq_singleton hnodup hmem] at hfilter ⊢
    exact (perm_singleton.mp hfilter.symm).symm

theorem get_argumentSlots_of_perm (hnodup : (s.addressed c 0 arguments).Nodup)
    (hperm : (s.destinations c 0 arguments).Perm (s.destinations c 0 arguments')) (slots : Slots)
    (f : FeatureId) :
    (s.argumentSlots c 0 [] arguments slots).get f =
      (s.argumentSlots c 0 [] arguments' slots).get f := by
  have hnodup' : (s.addressed c 0 arguments').Nodup := (hperm.filterMap _).nodup hnodup
  rw [get_argumentSlots_of_nodup hnodup, get_argumentSlots_of_nodup hnodup',
    filter_destinations_of_perm hnodup hperm]

end Schema

namespace BuildM

variable {τ : Type} {s : Schema}

/-- Binding the arguments of a statement is independent of their order, as long as the unlabeled
ones are not moved past each other and no two arguments address the same feature: every feature gets
the same values, and the same problems and references are added, up to order. -/
theorem perm_bindArguments (hs : s.Accepted) {arguments arguments' : List Argument}
    (hperm : arguments.Perm arguments')
    (horder : arguments.filter (·.label.isNone) = arguments'.filter (·.label.isNone))
    (id : ElementId) (line : Nat) (b : Building τ)
    (hown : ∀ f i j, s.Addresses (b.model.classOf id) arguments i f →
      s.Addresses (b.model.classOf id) arguments j f → i = j) :
    let r := (bindArguments s id arguments line b).2
    let r' := (bindArguments s id arguments' line b).2
    (∀ j f, r.model.values j f = r'.model.values j f) ∧
      r.problems.Perm r'.problems ∧ r.unresolved.Perm r'.unresolved := by
  have hnodup := hs.nodup_addressed_iff.mpr hown
  have hdestinations : (s.destinations (b.model.classOf id) 0 arguments).Perm
    (s.destinations (b.model.classOf id) 0 arguments') := Schema.perm_destinations hperm horder
  have hnodup' : (s.addressed (b.model.classOf id) 0 arguments').Nodup :=
    (hdestinations.filterMap _).nodup hnodup
  rw [bindArguments, getModel_bind_apply, adds_bindRest hnodup line b, bindArguments,
    getModel_bind_apply, adds_bindRest hnodup' line b]
  refine ⟨fun j f => ?_, ?_, ?_⟩
  · rw [Model.values_fill, Model.values_fill,
      Schema.get_argumentSlots_of_perm hnodup hdestinations]
  · exact (hdestinations.flatMap_right _).append_left _
  · exact (hdestinations.flatMap_right _).append_left _

/-- A parcel with two arguments by position and three with labels, one of them unknown. -/
def parcelArguments : List Argument := [
  ⟨none, .single ⟨.string "crate", 0, none⟩⟩,
  ⟨some ⟨.identifier "route", 0, none⟩,
    .list [⟨.reference "/a", 0, none⟩, ⟨.reference "/b", 1, none⟩]⟩,
  ⟨none, .single ⟨.string "heavy", 1, none⟩⟩,
  ⟨some ⟨.identifier "fragile", 2, none⟩, .single ⟨.boolean true, 2, none⟩⟩,
  ⟨some ⟨.identifier "colour", 3, none⟩, .single ⟨.integer 7, 3, none⟩⟩]

/-- The same arguments, those with labels in other places. -/
def movedArguments : List Argument := [
  ⟨some ⟨.identifier "colour", 3, none⟩, .single ⟨.integer 7, 3, none⟩⟩,
  ⟨none, .single ⟨.string "crate", 0, none⟩⟩,
  ⟨none, .single ⟨.string "heavy", 1, none⟩⟩,
  ⟨some ⟨.identifier "fragile", 2, none⟩, .single ⟨.boolean true, 2, none⟩⟩,
  ⟨some ⟨.identifier "route", 0, none⟩,
    .list [⟨.reference "/a", 0, none⟩, ⟨.reference "/b", 1, none⟩]⟩]

/-- A single parcel that nothing has been bound to. -/
def parcel : Building Unit := { model := Model.create {} 0 none, keeper := () }

theorem perm_bindArguments_parcel : ∃ s, parcels.build = .ok s ∧
    (bindArguments s 0 movedArguments 0 parcel).2.model.values 0 2 = [.proxy "/a", .proxy "/b"] ∧
    (bindArguments s 0 movedArguments 0 parcel).2.problems.map (·.line) = [3, 1] ∧
    (∀ j f, (bindArguments s 0 parcelArguments 0 parcel).2.model.values j f =
      (bindArguments s 0 movedArguments 0 parcel).2.model.values j f) ∧
    (bindArguments s 0 parcelArguments 0 parcel).2.problems.Perm
      (bindArguments s 0 movedArguments 0 parcel).2.problems ∧
    (bindArguments s 0 parcelArguments 0 parcel).2.unresolved.Perm
      (bindArguments s 0 movedArguments 0 parcel).2.unresolved := by
  refine ⟨_, rfl, by decide +kernel, by decide +kernel, ?_⟩
  have hs : Schema.Accepted _ := ⟨parcels, rfl⟩
  have hperm : parcelArguments.Perm movedArguments := by decide +kernel
  exact perm_bindArguments hs hperm (by decide +kernel) 0 0 parcel
    (hs.nodup_addressed_iff.mp (by decide +kernel))

end BuildM

end CommandText
