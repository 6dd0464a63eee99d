import CommandText.Proofs.SchemaValidity
import Mathlib.Data.List.Perm.Basic

/-!
# The tables of a built schema

A schema answers from tables that are filled once, while it is built: the ancestors and features of
each class, and the classes under each command word. What is found there can be said from the
definition: classes conform along the supertypes that they list, a class has the features of all
classes that it conforms to, and a command word leads to the class that has it among those that can
stand at a place.
-/

namespace CommandText

open List Relation SchemaDefinition Schema Lineage

variable {c e i : ClassId} {d : SchemaDefinition} {s : Schema}

namespace SchemaDefinition

/-- A schema is put together from a definition with the numbers of its supertypes and a table of
lineages. -/
structure Builds (d : SchemaDefinition) (s : Schema) (supertypes : List (List ClassId))
    (table : Lineage.Table) : Prop where
  names : (d.classes.map (·.name)).Nodup
  resolves : d.resolveSupertypes = .ok supertypes
  acyclic : ∀ c, ¬ TransGen (Extends supertypes) c c
  features : d.resolveFeatures = .ok s.features
  exact : ∀ i < d.classes.length, (table.at i).Exact s.features supertypes i
  /-- The features that a class declares come last. -/
  own : ∀ i < d.classes.length, Lineage.own s.features i <:+ (table.at i).features
  distinct : ∀ i < d.classes.length,
    ((table.at i).features.map (Lineage.nameOf s.features)).Nodup
  length : s.classes.length = d.classes.length
  classAt : ∀ i c, d.classes[i]? = some c →
    ∃ commands, s.classAt i = { classOf supertypes table (c, i) with commands }

theorem exists_builds (h : d.build = .ok s) : ∃ supertypes table, d.Builds s supertypes table := by
  obtain ⟨pattern, -, -, hnames, supertypes, hsupertypes, order, horder, features, hfeatures, table,
    htable, hs⟩ := build_eq_ok_iff.mp h
  obtain rfl : s.features = features := (withCommands_spec hs).1
  have hresolved := resolved hnames hsupertypes
  obtain ⟨htopological, hall⟩ := topological_of_inheritanceOrder hresolved horder
  rw [length_supertypes hsupertypes] at hall
  have hexact (i : ClassId) (hi : i < d.classes.length) :
      (table.at i).Exact s.features supertypes i :=
    exact_deriveAll htopological (fun i => (hall i).mp) htable i ((hall i).mpr hi)
  refine ⟨supertypes, table, ?_⟩
  exact
    { names := hnames
      resolves := hsupertypes
      acyclic := (exists_inheritanceOrder_iff hresolved).mp ⟨order, horder⟩
      features := hfeatures
      exact := hexact
      own := fun i hi => own_suffix_deriveAll htable _ (hexact i hi).mem_table
      distinct := fun i hi => nodup_names_deriveAll htable _ (hexact i hi).mem_table
      length := by
        rw [length_of_withCommands hs]
        simp [draft]
      classAt := fun i c hi => by
        obtain ⟨commands, hclass, -⟩ := classAt_of_withCommands hs i
        rw [classAt_draft hi] at hclass
        exact ⟨commands, hclass⟩ }

/-- A schema has the classes of its definition, in their order. -/
structure Mirrors (d : SchemaDefinition) (s : Schema) : Prop where
  length : s.classes.length = d.classes.length
  name : ∀ i c, d.classes[i]? = some c → s.className i = c.name
  command : ∀ i c, d.classes[i]? = some c → s.commandOf i = c.commandWord
  isAbstract : ∀ i c, d.classes[i]? = some c → (s.classAt i).isAbstract = c.isAbstract
  root : ∀ i c, d.classes[i]? = some c → (s.classAt i).root = c.root
  supertypes : ∀ i c, d.classes[i]? = some c →
    (s.classAt i).supertypes.map s.className = c.supertypes

end SchemaDefinition

/-- A class lists another one as a supertype. -/
def Schema.Lists (s : Schema) (c p : ClassId) : Prop := p ∈ (s.classAt c).supertypes

section Builds

variable {supertypes : List (List ClassId)} {table : Lineage.Table}
variable (h : d.Builds s supertypes table)

include h

namespace SchemaDefinition.Builds

theorem mem_classIds_iff : i ∈ s.classIds ↔ ∃ c, d.classes[i]? = some c := by
  rw [classIds, mem_range, h.length]
  simp [← Option.isSome_iff_exists]

theorem supertypes_eq (i : ClassId) : (s.classAt i).supertypes = supertypesOf supertypes i := by
  cases hi : d.classes[i]? with
  | none =>
    have hle := getElem?_eq_none_iff.mp hi
    have hclasses : s.classes[i]? = none := getElem?_eq_none (by rwa [h.length])
    have hrows : supertypes[i]? = none :=
      getElem?_eq_none (by rwa [length_supertypes h.resolves])
    simp [Schema.classAt, supertypesOf, getD_eq_getElem?_getD, hclasses, hrows, default,
      instInhabitedClass.default]
  | some c =>
    obtain ⟨_, hclass⟩ := h.classAt i c hi
    rw [hclass]
    rfl

theorem lists_eq : s.Lists = Extends supertypes := by
  funext c p
  rw [Schema.Lists, Extends, h.supertypes_eq]

theorem mirrors : d.Mirrors s := by
  have hclass (i : ClassId) (c : ClassDefinition) (hi : d.classes[i]? = some c) :
      s.className i = c.name ∧ s.commandOf i = c.commandWord ∧
        (s.classAt i).isAbstract = c.isAbstract ∧ (s.classAt i).root = c.root := by
    obtain ⟨_, hclass⟩ := h.classAt i c hi
    rw [className, commandOf, hclass]
    exact ⟨rfl, rfl, rfl, rfl⟩
  refine ⟨h.length, fun i c hi => (hclass i c hi).1, fun i c hi => (hclass i c hi).2.1,
    fun i c hi => (hclass i c hi).2.2.1, fun i c hi => (hclass i c hi).2.2.2, fun i c hi => ?_⟩
  rw [h.supertypes_eq]
  have hrow := Except.mapM_eq_ok_iff.mp (mapM_findClass h.resolves hi)
  rw [← forall₂_eq_eq_eq, forall₂_map_left_iff]
  refine hrow.flip.imp fun j name hj => ?_
  obtain ⟨p, hp, rfl⟩ := (classNamed?_eq_some_iff h.names).mp (findClass_eq_ok_iff.mp hj)
  exact (hclass j p hp).1

theorem featuresOf_eq {c : ClassDefinition} (hi : d.classes[i]? = some c) :
    s.featuresOf i = (table.at i).features := by
  obtain ⟨_, hclass⟩ := h.classAt i c hi
  rw [Schema.featuresOf, hclass]
  rfl

theorem conforms_iff {p : ClassId} (hi : i ∈ s.classIds) :
    s.conforms i p = true ↔ ReflTransGen s.Lists i p := by
  obtain ⟨c, hc⟩ := h.mem_classIds_iff.mp hi
  obtain ⟨_, hclass⟩ := h.classAt i c hc
  rw [conforms, hclass, h.lists_eq, contains_iff_mem]
  exact (h.exact i (List.getElem?_eq_some_iff.mp hc).1).ancestors p

theorem mem_featuresOf_iff {f : FeatureId} (hi : i ∈ s.classIds) : f ∈ s.featuresOf i ↔
      f < s.features.length ∧ s.conforms i (s.featureAt f).owner = true := by
  obtain ⟨c, hc⟩ := h.mem_classIds_iff.mp hi
  rw [h.conforms_iff hi, h.lists_eq, h.featuresOf_eq hc]
  exact (h.exact i (List.getElem?_eq_some_iff.mp hc).1).features f

end SchemaDefinition.Builds

end Builds

/-! ### Subtypes -/

/-- Classes conform along their supertypes. -/
structure Schema.SubtypeOrder (s : Schema) : Prop where
  conforms_iff : ∀ c ∈ s.classIds, ∀ p, s.conforms c p = true ↔ ReflTransGen s.Lists c p
  refl : ∀ c ∈ s.classIds, s.conforms c c = true
  trans : ∀ a b c, s.conforms a b = true → s.conforms b c = true → s.conforms a c = true
  antisymm : ∀ a b, s.conforms a b = true → s.conforms b a = true → a = b
  mem_concreteSubtypes_iff : ∀ c p, c ∈ s.concreteSubtypes p ↔
    c ∈ s.classIds ∧ (s.classAt c).isAbstract = false ∧ s.conforms c p = true
  /-- In the order of their definition, each once. -/
  sorted : ∀ p, (s.concreteSubtypes p).Pairwise (· < ·)

/-- In a built schema, classes conform along the supertypes that their definitions list. -/
theorem subtypeOrder_of_build {d : SchemaDefinition} {s : Schema} (h : d.build = .ok s) :
    d.Mirrors s ∧ s.SubtypeOrder := by
  obtain ⟨supertypes, table, h⟩ := exists_builds h
  have hconforms {c p : ClassId} (hc : s.conforms c p = true) : ReflTransGen s.Lists c p :=
    (h.conforms_iff (mem_range.mpr (lt_length_of_conforms hc))).mp hc
  refine ⟨h.mirrors, fun c hc p => h.conforms_iff hc, fun c hc => (h.conforms_iff hc).mpr .refl,
    fun a b c hab hbc => ?_, fun a b hab hba => ?_, fun c p => ?_, fun p => ?_⟩
  · have ha := mem_range.mpr (lt_length_of_conforms hab)
    exact (h.conforms_iff ha).mpr ((hconforms hab).trans (hconforms hbc))
  · -- two ways make a cycle, unless they are empty
    have hab' := hconforms hab
    have hba' := hconforms hba
    rw [h.lists_eq] at hab' hba'
    rcases reflTransGen_iff_eq_or_transGen.mp hab' with hb | hab'
    · exact hb.symm
    · exact absurd (hab'.trans_left hba') (h.acyclic a)
  · rw [concreteSubtypes, subtypes, mem_filter, mem_filter, and_assoc,
      and_comm (a := s.conforms c p = true), isConcrete, Bool.not_eq_true']
  · exact (pairwise_lt_range.filter _).filter _

/-- The classes of machines and parts. -/
theorem subtypeOrder_machines : ∃ s, machines.build = .ok s ∧
    machines.Mirrors s ∧ s.SubtypeOrder := by
  obtain ⟨s, hs⟩ : ∃ s, machines.build = .ok s := ⟨_, rfl⟩
  exact ⟨s, hs, subtypeOrder_of_build hs⟩

/-! ### Features -/

theorem Schema.featuresOf_eq_nil (hc : c ∉ s.classIds) : s.featuresOf c = [] := by
  rw [classIds, mem_range, Nat.not_lt] at hc
  rw [featuresOf, classAt, getD_eq_getElem?_getD, getElem?_eq_none hc]
  rfl

theorem Schema.Accepted.nodup_names (h : s.Accepted) (c : ClassId) :
    ((s.featuresOf c).map fun f => (s.featureAt f).name).Nodup := by
  obtain ⟨d, hd⟩ := h
  obtain ⟨supertypes, table, h⟩ := exists_builds hd
  by_cases hc : c ∈ s.classIds
  · obtain ⟨cls, hcls⟩ := h.mem_classIds_iff.mp hc
    rw [h.featuresOf_eq hcls]
    exact h.distinct c (List.getElem?_eq_some_iff.mp hcls).1
  · rw [featuresOf_eq_nil hc]
    exact nodup_nil

theorem SchemaDefinition.forall₂_own {features : List Feature}
    (h : d.resolveFeatures = .ok features) {c : ClassDefinition} (hi : d.classes[i]? = some c) :
    List.Forall₂ (fun x f => d.Resolves ((c, i), x) (features.getD f default)) c.features
      (Lineage.own features i) := by
  have hown : features.filter (·.owner == i) =
      (Lineage.own features i).map (features.getD · default) := by
    conv_lhs => rw [← map_getD_range features, filter_map]
    rfl
  have hfilter := rel_filter (p := fun x => x.1.2 == i) (q := fun g : Feature => g.owner == i)
    (fun x g hg => by simp [hg.owner]) (forall₂_declared h)
  rw [filter_declared hi, hown] at hfilter
  exact forall₂_map_right_iff.mp (forall₂_map_left_iff.mp hfilter)

/-- The features of a class of some definition. -/
structure Schema.ExactFeatures (d : SchemaDefinition) (s : Schema) (c : ClassId)
    (cls : ClassDefinition) : Prop where
  nodup : (s.featuresOf c).Nodup
  mem_iff : ∀ f, f ∈ s.featuresOf c ↔
    f < s.features.length ∧ s.conforms c (s.featureAt f).owner = true
  /-- Inherited features come first, and then those that the definition lists, in its order. -/
  eq_append : ∃ inherited own, s.featuresOf c = inherited ++ own ∧
    (∀ f ∈ inherited, (s.featureAt f).owner ≠ c) ∧
    List.Forall₂ (fun x f => d.Resolves ((cls, c), x) (s.featureAt f)) cls.features own
  names : ((s.featuresOf c).map fun f => (s.featureAt f).name).Nodup
  featureNamed?_iff : ∀ name f, s.featureNamed? c name = some f ↔
    f ∈ s.featuresOf c ∧ (s.featureAt f).name = name
  containments_sublist : (s.containments c).Sublist (s.featuresOf c)
  arguments_sublist : (s.arguments c).Sublist (s.featuresOf c)
  /-- Every feature is a containment or an argument. -/
  partition : (s.containments c ++ s.arguments c).Perm (s.featuresOf c)
  containments_kind : ∀ f ∈ s.containments c, (s.featureAt f).isContainment = true
  arguments_kind : ∀ f ∈ s.arguments c, (s.featureAt f).isContainment = false
  unlabeled : ∀ f ∈ s.unlabeledArguments c, f ∈ s.arguments c
  /-- Every argument is given by position or under a label, and not both. -/
  labeled_iff : ∀ f ∈ s.arguments c, f ∈ s.labeledArguments c ↔ f ∉ s.unlabeledArguments c

/-- In a built schema, a class has the features that it declares or inherits. -/
theorem exactFeatures_of_build {d : SchemaDefinition} {s : Schema} (h : d.build = .ok s)
    {c : ClassId} {cls : ClassDefinition} (hcls : d.classes[c]? = some cls) :
    s.ExactFeatures d c cls := by
  have haccepted : s.Accepted := ⟨d, h⟩
  obtain ⟨supertypes, table, h⟩ := exists_builds h
  have hc : c ∈ s.classIds := h.mem_classIds_iff.mpr ⟨cls, hcls⟩
  have hlt := (List.getElem?_eq_some_iff.mp hcls).1
  have hfeatures := h.featuresOf_eq hcls
  have hnodup : (s.featuresOf c).Nodup := hfeatures ▸ (h.exact c hlt).nodup
  have hnames := haccepted.nodup_names c
  obtain ⟨inherited, happend⟩ := h.own c hlt
  rw [← hfeatures] at happend
  -- an own feature among the inherited ones would be there twice
  have howner (f : FeatureId) (hf : f ∈ inherited) : (s.featureAt f).owner ≠ c := by
    intro howner
    rw [← happend, nodup_append] at hnodup
    have hmem : f ∈ s.featuresOf c := happend ▸ mem_append_left _ hf
    have hlt := ((h.mem_featuresOf_iff hc).mp hmem).1
    exact hnodup.2.2 f hf f (mem_own_iff.mpr ⟨hlt, howner⟩) rfl
  exact
    { nodup := hnodup
      mem_iff := fun f => h.mem_featuresOf_iff hc
      eq_append := ⟨inherited, _, happend.symm, howner,
        forall₂_own h.features hcls⟩
      names := hnames
      featureNamed?_iff := fun name f => named?_eq_some_iff hnames
      containments_sublist := filter_sublist
      arguments_sublist := filter_sublist
      partition := filter_append_perm _ _
      containments_kind := fun f hf => (mem_filter.mp hf).2
      arguments_kind := fun f hf => by simpa using (mem_filter.mp hf).2
      unlabeled := fun f => haccepted.mem_arguments
      labeled_iff := fun f hf => by simp [labeledArguments, hf] }

/-- A machine has its name from two sides, and its color last. -/
theorem exactFeatures_machines : ∃ s cls, machines.build = .ok s ∧
    machines.classes[0]? = some cls ∧
    s.ExactFeatures machines 0 cls := by
  obtain ⟨s, hs⟩ : ∃ s, machines.build = .ok s := ⟨_, rfl⟩
  exact ⟨s, _, hs, rfl, exactFeatures_of_build hs rfl⟩

/-! ### Command words -/

/-- A class declares or inherits a containment to whose target another class conforms. -/
def Schema.Takes (s : Schema) (c e : ClassId) : Prop :=
  ∃ f < s.features.length, s.conforms c (s.featureAt f).owner = true ∧
    ∃ target, (s.featureAt f).kind = .containment target ∧ s.conforms e target = true

theorem Schema.mem_containmentsAccepting {f : FeatureId} :
    f ∈ s.containmentsAccepting c e ↔ f ∈ s.featuresOf c ∧
      ∃ target, (s.featureAt f).kind = .containment target ∧ s.conforms e target = true := by
  rw [containmentsAccepting, mem_filter, containments, mem_filter, and_assoc,
    Feature.isContainment, Feature.target?]
  cases (s.featureAt f).kind <;> simp

theorem Schema.mem_childClasses_iff_accepting :
    e ∈ s.childClasses c ↔ s.containmentsAccepting c e ≠ [] := by
  rw [mem_childClasses_iff, Ne, eq_nil_iff_forall_not_mem, not_forall_not]
  refine exists_congr fun f => ?_
  rw [containmentsAccepting, mem_filter, Option.any_eq_true]
  refine and_congr_right fun _ => exists_congr fun target => and_congr_right fun _ => ?_
  rw [subtypes, mem_filter]
  exact ⟨And.right, fun h => ⟨mem_range.mpr (lt_length_of_conforms h), h⟩⟩

theorem Schema.hasCommand_iff {word : String} :
    s.hasCommand word = true ↔ ∃ c ∈ s.classIds, s.commandOf c = word := by
  rw [hasCommand, any_eq_true]
  constructor
  · rintro ⟨cls, hcls, hword⟩
    obtain ⟨c, hc⟩ := mem_iff_getElem?.mp hcls
    refine ⟨c, List.mem_range.mpr (List.getElem?_eq_some_iff.mp hc).1, ?_⟩
    rw [commandOf, classAt, getD_eq_getElem?_getD, hc]
    exact beq_iff_eq.mp hword
  · rintro ⟨c, hc, rfl⟩
    have hlt : c < s.classes.length := mem_range.mp hc
    refine ⟨s.classAt c, ?_, beq_self_eq_true _⟩
    rw [classAt, getD_eq_getElem _ _ hlt]
    exact getElem_mem hlt

theorem SchemaDefinition.Builds.takes_iff {supertypes : List (List ClassId)} {table : Lineage.Table}
    (h : d.Builds s supertypes table) : s.Takes c e ↔ s.containmentsAccepting c e ≠ [] := by
  rw [Ne, eq_nil_iff_forall_not_mem, not_forall_not]
  by_cases hc : c ∈ s.classIds
  · simp only [Schema.Takes, mem_containmentsAccepting, h.mem_featuresOf_iff hc, and_assoc]
  · refine iff_of_false ?_ ?_
    · rintro ⟨f, -, hconforms, -⟩
      exact hc (mem_range.mpr (lt_length_of_conforms hconforms))
    · simp [mem_containmentsAccepting, featuresOf_eq_nil hc]

/-- Command words lead to the classes that have them. -/
structure Schema.ExactCommands (d : SchemaDefinition) (s : Schema) (word : String) : Prop where
  inside : ∀ c e, s.classForCommand? word (some c) = some e ↔
    ∃ cls, d.classes[e]? = some cls ∧ cls.commandWord = word ∧ s.Takes c e
  takes_iff : ∀ c e, s.Takes c e ↔ s.containmentsAccepting c e ≠ []
  root : ∀ e, s.classForCommand? word none = some e ↔
    ∃ cls, d.classes[e]? = some cls ∧ cls.commandWord = word ∧ cls.root = true
  hasCommand_iff : s.hasCommand word = true ↔ ∃ cls ∈ d.classes, cls.commandWord = word

/-- In a built schema, a command word leads to the class that has it among those that a class takes
or that may stand on root level. -/
theorem exactCommands_of_build {d : SchemaDefinition} {s : Schema} (h : d.build = .ok s)
    (word : String) : s.ExactCommands d word := by
  have haccepted : s.Accepted := ⟨d, h⟩
  obtain ⟨supertypes, table, h⟩ := exists_builds h
  have hmirrors := h.mirrors
  refine ⟨fun c e => ?_, fun c e => h.takes_iff, fun e => ?_, ?_⟩
  · rw [haccepted.classForCommand?_eq_some_iff, mem_childClasses_iff_accepting, ← h.takes_iff]
    constructor
    · rintro ⟨htakes, hword⟩
      have he : e ∈ s.classIds := by
        obtain ⟨f, -, -, target, -, hconforms⟩ := htakes
        exact mem_range.mpr (lt_length_of_conforms hconforms)
      obtain ⟨cls, hcls⟩ := h.mem_classIds_iff.mp he
      exact ⟨cls, hcls, (hmirrors.command e cls hcls).symm.trans hword, htakes⟩
    · rintro ⟨cls, hcls, hword, htakes⟩
      exact ⟨htakes, (hmirrors.command e cls hcls).trans hword⟩
  · rw [haccepted.classForCommand?_none_eq_some_iff, h.mem_classIds_iff]
    constructor
    · rintro ⟨⟨⟨cls, hcls⟩, hroot⟩, hword⟩
      rw [hmirrors.root e cls hcls] at hroot
      rw [hmirrors.command e cls hcls] at hword
      exact ⟨cls, hcls, hword, hroot⟩
    · rintro ⟨cls, hcls, hword, hroot⟩
      rw [hmirrors.root e cls hcls, hmirrors.command e cls hcls]
      exact ⟨⟨⟨cls, hcls⟩, hroot⟩, hword⟩
  · rw [hasCommand_iff]
    constructor
    · rintro ⟨e, he, hword⟩
      obtain ⟨cls, hcls⟩ := h.mem_classIds_iff.mp he
      exact ⟨cls, mem_of_getElem? hcls, (hmirrors.command e cls hcls).symm.trans hword⟩
    · rintro ⟨cls, hcls, hword⟩
      obtain ⟨e, he⟩ := mem_iff_getElem?.mp hcls
      exact ⟨e, h.mem_classIds_iff.mpr ⟨cls, he⟩, (hmirrors.command e cls he).trans hword⟩

/-- Parts and machines go into machines. -/
theorem exactCommands_machines : ∃ s, machines.build = .ok s ∧
    s.ExactCommands machines "Screw" := by
  obtain ⟨s, hs⟩ : ∃ s, machines.build = .ok s := ⟨_, rfl⟩
  exact ⟨s, hs, exactCommands_of_build hs _⟩

end CommandText
