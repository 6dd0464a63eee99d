import CommandText.Proofs.CommandTables
import CommandText.Proofs.SchemaNames

/-!
# Valid definitions

Building a schema checks the definition step by step, on tables that are being filled. What is
checked in the end can be said without them: on the names of the definition alone.
-/

namespace CommandText

open List Relation Lineage Schema

variable {c : ClassDefinition} {i : ClassId}

theorem checkDistinct_eq_ok_iff {error : String → SchemaError} {names : List String} :
    checkDistinct error [] names = .ok () ↔ names.Nodup := by
  have hseen (seen : List String) : checkDistinct error seen names = .ok () ↔
      repeatedName? seen names = none := by
    induction names generalizing seen with
    | nil => simp [checkDistinct, repeatedName?]
    | cons name names ih =>
      rw [checkDistinct, repeatedName?]
      split
      · simp
      · exact ih (name :: seen)
  rw [hseen, repeatedName?_eq_none_iff]
  exact and_iff_left (by simp)

namespace SchemaDefinition

variable {d : SchemaDefinition}

/-- Elements of a class may stand in some containment of another one. -/
def TakesChild (d : SchemaDefinition) (c a : ClassDefinition) : Prop :=
  ∃ f ∈ d.featuresOf c, f.sort = .containment ∧ ∃ target ∈ f.target, d.Conforms a.name target

/-- The features of a class have distinct names, and the class names only features that it has:
those given by position are no containments. -/
structure FeaturesFit (d : SchemaDefinition) (c : ClassDefinition) : Prop where
  distinct : ((d.featuresOf c).map (·.name)).Nodup
  unlabeled : ∀ names ∈ c.unlabeled, ∀ name ∈ names,
    ∃ f ∈ d.featuresOf c, f.name = name ∧ f.sort ≠ .containment
  backward : ∀ name ∈ c.backward, ∃ f ∈ d.featuresOf c, f.name = name

/-- No two classes share a command word, neither on root level nor in the containments of one
class. -/
structure CommandsFit (d : SchemaDefinition) : Prop where
  roots : ∀ a ∈ d.classes, ∀ b ∈ d.classes, a.root = true → b.root = true →
    a.commandWord = b.commandWord → a.name = b.name
  children : ∀ c ∈ d.classes, ∀ a ∈ d.classes, ∀ b ∈ d.classes, d.TakesChild c a →
    d.TakesChild c b → a.commandWord = b.commandWord → a.name = b.name

/-- What a definition has to meet. -/
structure Valid (d : SchemaDefinition) : Prop where
  enums_nodup : (d.enums.map (·.name)).Nodup
  classes_nodup : (d.classes.map (·.name)).Nodup
  supertypes_known : ∀ c ∈ d.classes, ∀ name ∈ c.supertypes, ∃ p ∈ d.classes, p.name = name
  acyclic : ∀ name, ¬ TransGen d.Inherits name name
  targets_fit : ∀ c ∈ d.classes, ∀ f ∈ c.features, d.TargetFits f
  features_fit : ∀ c ∈ d.classes, d.FeaturesFit c
  commands_fit : d.CommandsFit

/-! ### The steps of building -/

/-- The schema before its command words are entered. -/
def draft (d : SchemaDefinition) (pattern : Pattern) (supertypes : List (List ClassId))
    (features : List Feature) (table : Lineage.Table) : Schema where
  classes := d.classes.zipIdx.map (classOf supertypes table)
  features := features
  enums := d.enums.map fun e => ⟨e.name, e.literals⟩
  rootCommands := []
  pattern := pattern
  patternText := d.pattern.getD stockPattern
  generics := d.generics
  lineAttribute := d.lineAttribute
  fileAttribute := d.fileAttribute
  fragmentAttribute := d.fragmentAttribute

theorem order_eq_ok_iff {supertypes : List (List ClassId)} {order : List ClassId} :
    d.order supertypes = .ok order ↔ inheritanceOrder supertypes = .ok order := by
  rw [SchemaDefinition.order]
  cases inheritanceOrder supertypes <;> simp

theorem build_eq_ok_iff {s : Schema} : d.build = .ok s ↔
    ∃ pattern, d.readPattern = .ok pattern ∧ (d.enums.map (·.name)).Nodup ∧
    (d.classes.map (·.name)).Nodup ∧
    ∃ supertypes, d.resolveSupertypes = .ok supertypes ∧
    ∃ order, inheritanceOrder supertypes = .ok order ∧
    ∃ features, d.resolveFeatures = .ok features ∧
    ∃ table, deriveAll features d.classes supertypes order = .ok table ∧
    (d.draft pattern supertypes features table).withCommands = .ok s := by
  simp only [build, Except.bind_eq_ok_iff, order_eq_ok_iff]
  constructor
  · rintro ⟨pattern, hpattern, ⟨⟩, henums, ⟨⟩, hclasses, supertypes, hsupertypes, order, horder,
      features, hfeatures, table, htable, hs⟩
    exact ⟨pattern, hpattern, checkDistinct_eq_ok_iff.mp henums,
      checkDistinct_eq_ok_iff.mp hclasses,
      supertypes, hsupertypes, order, horder, features, hfeatures, table, htable, hs⟩
  · rintro ⟨pattern, hpattern, henums, hclasses, supertypes, hsupertypes, order, horder, features,
      hfeatures, table, htable, hs⟩
    exact ⟨pattern, hpattern, (), checkDistinct_eq_ok_iff.mpr henums, (),
      checkDistinct_eq_ok_iff.mpr hclasses, supertypes, hsupertypes, order, horder, features,
      hfeatures, table, htable, hs⟩

section Steps

variable (hnames : (d.classes.map (·.name)).Nodup) {supertypes : List (List ClassId)}
  (hsupertypes : d.resolveSupertypes = .ok supertypes) {features : List Feature}
  (hfeatures : d.resolveFeatures = .ok features)

include hnames hsupertypes hfeatures

theorem fine_iff (hi : d.classes[i]? = some c) :
    Lineage.Fine features supertypes i c ↔ d.FeaturesFit c := by
  have hdistinct := distinct_iff hfeatures hnames hsupertypes hi
  have hargument (name : String) := exists_hasFeature_iff hfeatures hnames hsupertypes hi
    (P := fun g => g.name = name ∧ g.isContainment = false)
    (Q := fun f => f.name = name ∧ f.sort ≠ .containment) fun x g hg => by
      rw [hg.name, ← Bool.not_eq_true, isContainment_iff hg.kind]
  have hnamed (name : String) := exists_hasFeature_iff hfeatures hnames hsupertypes hi
    (P := fun g => g.name = name) (Q := fun f => f.name = name) fun x g hg => by rw [hg.name]
  constructor
  · intro h
    exact ⟨hdistinct.mp h.distinct, fun names hnames name hname =>
      (hargument name).mp (h.unlabeled names hnames name hname), fun name hname =>
      (hnamed name).mp (h.backward name hname)⟩
  · intro h
    exact ⟨hdistinct.mpr h.distinct, fun names hnames name hname =>
      (hargument name).mpr (h.unlabeled names hnames name hname), fun name hname =>
      (hnamed name).mpr (h.backward name hname)⟩

variable {pattern : Pattern} {table : Lineage.Table}
  (htable : ∀ i < d.classes.length, (table.at i).Exact features supertypes i)

omit hnames hsupertypes hfeatures in
theorem classAt_draft (hi : d.classes[i]? = some c) :
    (d.draft pattern supertypes features table).classAt i = classOf supertypes table (c, i) := by
  simp [draft, Schema.classAt, getD_eq_getElem?_getD, getElem?_zipIdx, hi]

omit hnames hsupertypes hfeatures in
theorem mem_classIds_draft_iff :
    i ∈ (d.draft pattern supertypes features table).classIds ↔ ∃ c, d.classes[i]? = some c := by
  simp [classIds, draft, ← Option.isSome_iff_exists]

omit hnames hsupertypes hfeatures in
theorem commandOf_draft (i : ClassId) (c : ClassDefinition) (hi : d.classes[i]? = some c) :
    (d.draft pattern supertypes features table).commandOf i = c.commandWord := by
  rw [commandOf, classAt_draft hi]
  rfl

omit hsupertypes hfeatures in
theorem commands_distinct_iff {word : ClassId → String} {P : ClassId → Prop}
    {Q : ClassDefinition → Prop} (hword : ∀ i a, d.classes[i]? = some a → word i = a.commandWord)
    (hP : ∀ i, P i → ∃ a, d.classes[i]? = some a)
    (hPQ : ∀ i a, d.classes[i]? = some a → (P i ↔ Q a)) :
    (∀ i, P i → ∀ j, P j → word i = word j → i = j) ↔
      ∀ a ∈ d.classes, ∀ b ∈ d.classes, Q a → Q b → a.commandWord = b.commandWord →
        a.name = b.name := by
  constructor
  · intro h a ha b hb hQa hQb hab
    obtain ⟨i, hi⟩ := mem_iff_getElem?.mp ha
    obtain ⟨j, hj⟩ := mem_iff_getElem?.mp hb
    rw [← hword i a hi, ← hword j b hj] at hab
    obtain rfl := h i ((hPQ i a hi).mpr hQa) j ((hPQ j b hj).mpr hQb) hab
    cases hi.symm.trans hj
    rfl
  · intro h i hPi j hPj hij
    obtain ⟨a, hi⟩ := hP i hPi
    obtain ⟨b, hj⟩ := hP j hPj
    rw [hword i a hi, hword j b hj] at hij
    exact eq_of_name_eq hnames hi hj (h a (mem_of_getElem? hi) b (mem_of_getElem? hj)
      ((hPQ i a hi).mp hPi) ((hPQ j b hj).mp hPj) hij)

include htable

theorem mem_childClasses_draft_iff {j : ClassId} {a : ClassDefinition} (hi : d.classes[i]? = some c)
    (hj : d.classes[j]? = some a) :
    j ∈ (d.draft pattern supertypes features table).childClasses i ↔ d.TakesChild c a := by
  have hlt {i : ClassId} {c : ClassDefinition} (hi : d.classes[i]? = some c) :
      i < d.classes.length := (List.getElem?_eq_some_iff.mp hi).1
  have hcontainments (f : FeatureId) :
      f ∈ (d.draft pattern supertypes features table).containments i ↔
        HasFeature features supertypes i f ∧ (features.getD f default).isContainment = true := by
    rw [Schema.containments, mem_filter, Schema.featuresOf, classAt_draft hi,
      ← (htable i (hlt hi)).features f]
    rfl
  have hsubtypes (target : ClassId) :
      j ∈ (d.draft pattern supertypes features table).subtypes target ↔
        ReflTransGen (Extends supertypes) j target := by
    rw [subtypes, mem_filter, conforms, classAt_draft hj,
      ← (htable j (hlt hj)).ancestors target, contains_iff_mem]
    exact and_iff_right (mem_classIds_draft_iff.mpr ⟨a, hj⟩)
  simp only [mem_childClasses_iff, hcontainments, hsubtypes, and_assoc]
  refine exists_hasFeature_iff hfeatures hnames hsupertypes hi
    (P := fun g => g.isContainment = true ∧
      ∃ target ∈ g.target?, ReflTransGen (Extends supertypes) j target)
    (Q := fun f => f.sort = .containment ∧ ∃ target ∈ f.target, d.Conforms a.name target)
    fun x g hg => ?_
  rw [isContainment_iff hg.kind]
  refine and_congr_right fun hsort => ?_
  obtain ⟨name, target, hname, htarget, hkind⟩ := exists_target_of_sort hg.kind hsort
  obtain ⟨p, hp, rfl⟩ := (classNamed?_eq_some_iff hnames).mp htarget
  simp [Feature.target?, hname, hkind, reflTransGen_iff hnames hsupertypes hj hp]

variable (pattern) in
theorem exists_withCommands_draft_iff :
    (∃ s, (d.draft pattern supertypes features table).withCommands = .ok s) ↔ d.CommandsFit := by
  have hchild {i j : ClassId}
      (hj : j ∈ (d.draft pattern supertypes features table).childClasses i) :
      ∃ a, d.classes[j]? = some a := by
    obtain ⟨f, -, target, -, hj⟩ := mem_childClasses_iff.mp hj
    exact mem_classIds_draft_iff.mp (mem_of_mem_filter hj)
  have hword : ∀ i a, d.classes[i]? = some a →
      (d.draft pattern supertypes features table).commandOf i = a.commandWord := commandOf_draft
  have hchildren {k : ClassId} {c : ClassDefinition} (hk : d.classes[k]? = some c) :=
    commands_distinct_iff hnames hword (fun i => hchild) fun i a hi =>
      mem_childClasses_draft_iff hnames hsupertypes hfeatures htable hk hi
  have hroots := commands_distinct_iff hnames hword
    (P := (· ∈ (d.draft pattern supertypes features table).classIds.filter fun c =>
      ((d.draft pattern supertypes features table).classAt c).root))
    (Q := fun a => a.root = true)
    (fun i hi => mem_classIds_draft_iff.mp (mem_of_mem_filter hi)) fun i a hi => by
      rw [mem_filter, classAt_draft hi]
      exact and_iff_right (mem_classIds_draft_iff.mpr ⟨a, hi⟩)
  rw [exists_withCommands_iff]
  constructor
  · rintro ⟨h, h'⟩
    refine ⟨hroots.mp h, fun c hc => ?_⟩
    obtain ⟨k, hk⟩ := mem_iff_getElem?.mp hc
    exact (hchildren hk).mp (h' k (mem_classIds_draft_iff.mpr ⟨c, hk⟩))
  · intro h
    refine ⟨hroots.mpr h.roots, fun k hk => ?_⟩
    obtain ⟨c, hk⟩ := mem_classIds_draft_iff.mp hk
    exact (hchildren hk).mpr (h.children c (mem_of_getElem? hk))

omit htable in
variable (pattern) in
theorem exists_deriveAll_withCommands_iff {order : List ClassId}
    (horder : inheritanceOrder supertypes = .ok order) :
    (∃ table, deriveAll features d.classes supertypes order = .ok table ∧
      ∃ s, (d.draft pattern supertypes features table).withCommands = .ok s) ↔
      (∀ c ∈ d.classes, d.FeaturesFit c) ∧ d.CommandsFit := by
  obtain ⟨htopological, hall⟩ :=
    topological_of_inheritanceOrder (resolved hnames hsupertypes) horder
  rw [length_supertypes hsupertypes] at hall
  have hclasses : ∀ i ∈ order, i < d.classes.length := fun i => (hall i).mp
  have hfine : (∃ table, deriveAll features d.classes supertypes order = .ok table) ↔
      ∀ c ∈ d.classes, d.FeaturesFit c := by
    rw [exists_deriveAll_iff htopological hclasses]
    constructor
    · intro h c hc
      obtain ⟨i, hi⟩ := mem_iff_getElem?.mp hc
      have hmem : i ∈ order := (hall i).mpr (List.getElem?_eq_some_iff.mp hi).1
      exact (fine_iff hnames hsupertypes hfeatures hi).mp (h i hmem c hi)
    · intro h i _ c hi
      exact (fine_iff hnames hsupertypes hfeatures hi).mpr (h c (mem_of_getElem? hi))
  have hcommands {table : Lineage.Table}
      (htable : deriveAll features d.classes supertypes order = .ok table) :=
    exists_withCommands_draft_iff hnames hsupertypes hfeatures pattern fun i hi =>
      exact_deriveAll htopological hclasses htable i ((hall i).mpr hi)
  constructor
  · rintro ⟨table, htable, hs⟩
    exact ⟨hfine.mp ⟨table, htable⟩, (hcommands htable).mp hs⟩
  · rintro ⟨hclass, hwords⟩
    obtain ⟨table, htable⟩ := hfine.mpr hclass
    exact ⟨table, htable, (hcommands htable).mpr hwords⟩

end Steps

/-! ### Whole definitions -/

/-- Where the pattern can be read, a definition gives a schema exactly if it is valid. -/
theorem exists_build_iff_valid (d : SchemaDefinition) (hpattern : ∃ p, d.readPattern = .ok p) :
    (∃ s, d.build = .ok s) ↔ d.Valid := by
  constructor
  · rintro ⟨s, hbuild⟩
    obtain ⟨pattern, -, henums, hnames, supertypes, hsupertypes, order, horder, features, hfeatures,
      table, htable, hs⟩ := build_eq_ok_iff.mp hbuild
    have hacyclic := (exists_inheritanceOrder_iff (resolved hnames hsupertypes)).mp ⟨order, horder⟩
    obtain ⟨hclasses, hcommands⟩ :=
      (exists_deriveAll_withCommands_iff hnames hsupertypes hfeatures pattern horder).mp
        ⟨table, htable, s, hs⟩
    exact
      { enums_nodup := henums
        classes_nodup := hnames
        supertypes_known := exists_resolveSupertypes_iff.mp ⟨supertypes, hsupertypes⟩
        acyclic := (acyclic_iff hnames hsupertypes).mp hacyclic
        targets_fit := exists_resolveFeatures_iff.mp ⟨features, hfeatures⟩
        features_fit := hclasses
        commands_fit := hcommands }
  · intro h
    have hnames := h.classes_nodup
    obtain ⟨pattern, hpattern⟩ := hpattern
    obtain ⟨supertypes, hsupertypes⟩ := exists_resolveSupertypes_iff.mpr h.supertypes_known
    obtain ⟨order, horder⟩ := (exists_inheritanceOrder_iff (resolved hnames hsupertypes)).mpr
      ((acyclic_iff hnames hsupertypes).mpr h.acyclic)
    obtain ⟨features, hfeatures⟩ := exists_resolveFeatures_iff.mpr h.targets_fit
    obtain ⟨table, htable, s, hs⟩ := (exists_deriveAll_withCommands_iff hnames hsupertypes hfeatures
      pattern horder).mpr ⟨h.features_fit, h.commands_fit⟩
    exact ⟨s, build_eq_ok_iff.mpr ⟨pattern, hpattern, h.enums_nodup, hnames, supertypes,
      hsupertypes,
      order, horder, features, hfeatures, table, htable, hs⟩⟩

/-- Machines hold parts, are parts themselves, and have their name from both sides. -/
def machines : SchemaDefinition where
  enums := [⟨"Color", ["red", "green"]⟩]
  classes := [
    { name := "Machine", supertypes := ["Holder", "Part"], unlabeled := some ["name", "color"],
      backward := some "name",
      features := [{ name := "color", sort := .enum, target := some "Color" }] },
    { name := "Holder", isAbstract := true, root := false, supertypes := ["Named"],
      features := [
        { name := "parts", sort := .containment, target := some "Part", many := true }] },
    { name := "Part", isAbstract := true, root := false, supertypes := ["Named"] },
    { name := "Screw", supertypes := ["Part"] },
    { name := "Named", isAbstract := true, root := false,
      features := [{ name := "name", sort := .string }] }]

theorem valid_machines : (∃ p, machines.readPattern = .ok p) ∧ (∃ s, machines.build = .ok s) ∧
    machines.Valid := by
  have hpattern : ∃ p, machines.readPattern = .ok p := ⟨_, rfl⟩
  have hbuild : ∃ s, machines.build = .ok s := ⟨_, rfl⟩
  exact ⟨hpattern, hbuild, (exists_build_iff_valid machines hpattern).mp hbuild⟩

end SchemaDefinition

end CommandText
