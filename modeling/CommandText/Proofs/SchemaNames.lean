import CommandText.Proofs.Lineages
import Mathlib.Data.List.GetD

/-!
# Names and numbers in a definition

A definition speaks of classes by name, a schema by number. Where class names are distinct, each
number stands for one name: inheritance between numbers is inheritance between names, and the
numbered features of a class are the features that the class and all it inherits from declare.
-/

namespace CommandText

open List Relation CommandText.Except

variable {p c : ClassDefinition} {j i : ClassId} {name : String} {α β : Type}

namespace SchemaDefinition

variable {d : SchemaDefinition} {supertypes : List (List ClassId)}

/-! ### What a definition says -/

/-- A class lists another one as a supertype. -/
def Inherits (d : SchemaDefinition) (a b : String) : Prop :=
  ∃ c ∈ d.classes, c.name = a ∧ b ∈ c.supertypes

/-- A class is another one or inherits from it. -/
def Conforms (d : SchemaDefinition) : String → String → Prop := ReflTransGen d.Inherits

open Classical in
/-- The features that a class declares or inherits, each once. -/
noncomputable def featuresOf (d : SchemaDefinition) (c : ClassDefinition) :
    List FeatureDefinition :=
  (d.classes.filter fun p => d.Conforms c.name p.name).flatMap (·.features)

theorem mem_featuresOf_iff {f : FeatureDefinition} :
    f ∈ d.featuresOf c ↔ ∃ p ∈ d.classes, d.Conforms c.name p.name ∧ f ∈ p.features := by
  simp [featuresOf, and_assoc]

/-- The target of a feature is given and of the right sort. -/
def TargetFits (d : SchemaDefinition) (f : FeatureDefinition) : Prop :=
  match f.sort with
  | .enum => ∃ e ∈ d.enums, f.target = some e.name
  | .reference | .containment => ∃ c ∈ d.classes, f.target = some c.name
  | _ => True

/-! ### Numbers of classes -/

theorem exists_classNamed?_iff :
    (∃ i, d.classNamed? name = some i) ↔ ∃ c ∈ d.classes, c.name = name := by
  rw [← Option.isSome_iff_exists, classNamed?, findIdx?_isSome]
  simp

theorem exists_enumNamed?_iff :
    (∃ i, d.enumNamed? name = some i) ↔ ∃ e ∈ d.enums, e.name = name := by
  rw [← Option.isSome_iff_exists, enumNamed?, findIdx?_isSome]
  simp

theorem findClass_eq_ok_iff {user : String} :
    d.findClass user name = .ok i ↔ d.classNamed? name = some i := by
  rw [findClass]
  cases d.classNamed? name <;> simp

section Numbers

variable (hnames : (d.classes.map (·.name)).Nodup)

include hnames

theorem eq_of_name_eq (hi : d.classes[i]? = some c) (hj : d.classes[j]? = some p)
    (h : c.name = p.name) : i = j := by
  have hlt : i < (d.classes.map (·.name)).length := by
    simpa using (List.getElem?_eq_some_iff.mp hi).1
  refine (getElem?_inj hlt hnames).mp ?_
  rw [getElem?_map, getElem?_map, hi, hj, Option.map_some, Option.map_some, h]

theorem classNamed?_eq_some_iff :
    d.classNamed? name = some i ↔ ∃ c, d.classes[i]? = some c ∧ c.name = name := by
  have found {i : ClassId} (h : d.classNamed? name = some i) :
      ∃ c, d.classes[i]? = some c ∧ c.name = name := by
    obtain ⟨hlt, hname, -⟩ := findIdx?_eq_some_iff_getElem.mp h
    exact ⟨d.classes[i], getElem?_eq_getElem hlt, by simpa using hname⟩
  refine ⟨found, ?_⟩
  rintro ⟨c, hc, hname⟩
  obtain ⟨j, hj⟩ := exists_classNamed?_iff.mpr ⟨c, mem_of_getElem? hc, hname⟩
  obtain ⟨p, hp, hname'⟩ := found hj
  rw [hj, eq_of_name_eq hnames hp hc (hname'.trans hname.symm)]

/-! ### Inheritance -/

variable (hsupertypes : d.resolveSupertypes = .ok supertypes)

include hsupertypes

omit hnames in
theorem length_supertypes : supertypes.length = d.classes.length :=
  (mapM_eq_ok_iff.mp hsupertypes).length_eq.symm

omit hnames in
theorem mapM_findClass (hi : d.classes[i]? = some c) :
    c.supertypes.mapM (d.findClass c.name) = .ok (supertypesOf supertypes i) := by
  have hall := mapM_eq_ok_iff.mp hsupertypes
  obtain ⟨hlt, rfl⟩ := List.getElem?_eq_some_iff.mp hi
  have hlt' : i < supertypes.length := by rwa [length_supertypes hsupertypes]
  simpa [supertypesOf, getD_eq_getElem?_getD, hlt'] using hall.get hlt hlt'

theorem extends_iff : Extends supertypes i j ↔
    ∃ c p, d.classes[i]? = some c ∧ d.classes[j]? = some p ∧ p.name ∈ c.supertypes := by
  cases hi : d.classes[i]? with
  | none =>
    refine iff_of_false (fun h => ?_) (by simp)
    have := h.lt_length
    rw [length_supertypes hsupertypes] at this
    have := getElem?_eq_none_iff.mp hi
    omega
  | some c =>
    rw [Extends, mem_mapM_iff (mapM_findClass hsupertypes hi)]
    simp only [findClass_eq_ok_iff, classNamed?_eq_some_iff hnames, Option.some.injEq]
    constructor
    · rintro ⟨name, hname, p, hp, rfl⟩
      exact ⟨c, p, rfl, hp, hname⟩
    · rintro ⟨c', p, rfl, hp, hname⟩
      exact ⟨p.name, hname, p, hp, rfl⟩

theorem resolved : Resolved supertypes := by
  intro i j h
  obtain ⟨c, p, -, hj, -⟩ := (extends_iff hnames hsupertypes).mp h
  rw [length_supertypes hsupertypes]
  exact (List.getElem?_eq_some_iff.mp hj).1

theorem transGen_iff (hi : d.classes[i]? = some c) (hj : d.classes[j]? = some p) :
    TransGen (Extends supertypes) i j ↔ TransGen d.Inherits c.name p.name := by
  constructor
  · intro h
    induction h generalizing p with
    | single h =>
      obtain ⟨c', p', hc', hp', hmem⟩ := (extends_iff hnames hsupertypes).mp h
      cases hi.symm.trans hc'
      cases hj.symm.trans hp'
      exact .single ⟨c, mem_of_getElem? hi, rfl, hmem⟩
    | tail _ h ih =>
      obtain ⟨c', p', hc', hp', hmem⟩ := (extends_iff hnames hsupertypes).mp h
      cases hj.symm.trans hp'
      exact (ih hc').tail ⟨c', mem_of_getElem? hc', rfl, hmem⟩
  · intro h
    generalize hname : p.name = name at h
    induction h generalizing p j with
    | single h =>
      subst hname
      obtain ⟨c', hc', hname, hmem⟩ := h
      obtain ⟨k, hk⟩ := mem_iff_getElem?.mp hc'
      obtain rfl := eq_of_name_eq hnames hk hi hname
      cases hi.symm.trans hk
      exact .single ((extends_iff hnames hsupertypes).mpr ⟨c, p, hi, hj, hmem⟩)
    | tail _ h ih =>
      subst hname
      obtain ⟨c', hc', hname, hmem⟩ := h
      obtain ⟨k, hk⟩ := mem_iff_getElem?.mp hc'
      exact (ih hk hname).tail ((extends_iff hnames hsupertypes).mpr ⟨c', p, hk, hj, hmem⟩)

theorem reflTransGen_iff (hi : d.classes[i]? = some c) (hj : d.classes[j]? = some p) :
    ReflTransGen (Extends supertypes) i j ↔ d.Conforms c.name p.name := by
  rw [Conforms, reflTransGen_iff_eq_or_transGen, reflTransGen_iff_eq_or_transGen,
    transGen_iff hnames hsupertypes hi hj]
  refine or_congr ?_ Iff.rfl
  constructor
  · rintro rfl
    cases hi.symm.trans hj
    rfl
  · exact fun h => eq_of_name_eq hnames hj hi h

theorem acyclic_iff : (∀ i, ¬ TransGen (Extends supertypes) i i) ↔
    ∀ name, ¬ TransGen d.Inherits name name := by
  constructor
  · intro h name hself
    obtain ⟨_, ⟨c, hc, rfl, -⟩, -⟩ := TransGen.head'_iff.mp hself
    obtain ⟨i, hi⟩ := mem_iff_getElem?.mp hc
    exact h i ((transGen_iff hnames hsupertypes hi hi).mpr hself)
  · intro h i hself
    obtain ⟨j, hij, -⟩ := TransGen.head'_iff.mp hself
    obtain ⟨c, -, hi, -, -⟩ := (extends_iff hnames hsupertypes).mp hij
    exact h c.name ((transGen_iff hnames hsupertypes hi hi).mp hself)

end Numbers

theorem exists_resolveSupertypes_iff :
    (∃ supertypes, d.resolveSupertypes = .ok supertypes) ↔
      ∀ c ∈ d.classes, ∀ name ∈ c.supertypes, ∃ p ∈ d.classes, p.name = name := by
  simp only [resolveSupertypes, exists_mapM_iff, findClass_eq_ok_iff,
    exists_classNamed?_iff]

/-! ### Kinds of features -/

section Kinds

variable {f : FeatureDefinition}

theorem targetName_eq_ok_iff : targetName c f = .ok name ↔ f.target = some name := by
  rw [targetName]
  cases f.target <;> simp

theorem exists_resolveKind_iff :
    (∃ kind, d.resolveKind c f = .ok kind) ↔ d.TargetFits f := by
  rw [resolveKind, TargetFits]
  cases f.sort with
  | string | integer | float | boolean | any => simp
  | enum =>
    simp only [bind_eq_ok_iff, targetName_eq_ok_iff]
    constructor
    · rintro ⟨kind, name, htarget, h⟩
      split at h
      · next i hi =>
        obtain ⟨e, he, rfl⟩ := exists_enumNamed?_iff.mp ⟨i, hi⟩
        exact ⟨e, he, htarget⟩
      · cases h
    · rintro ⟨e, he, htarget⟩
      obtain ⟨i, hi⟩ := exists_enumNamed?_iff.mpr ⟨e, he, rfl⟩
      exact ⟨_, e.name, htarget, by rw [hi]⟩
  | reference | containment =>
    simp only [bind_eq_ok_iff, targetName_eq_ok_iff, findClass_eq_ok_iff]
    constructor
    · rintro ⟨kind, name, htarget, i, hi, -⟩
      obtain ⟨p, hp, rfl⟩ := exists_classNamed?_iff.mp ⟨i, hi⟩
      exact ⟨p, hp, htarget⟩
    · rintro ⟨p, hp, htarget⟩
      obtain ⟨i, hi⟩ := exists_classNamed?_iff.mpr ⟨p, hp, rfl⟩
      exact ⟨_, p.name, htarget, i, hi, rfl⟩

theorem exists_target_of_sort {kind : FeatureKind} (h : d.resolveKind c f = .ok kind)
    (hsort : f.sort = .containment) : ∃ name target, f.target = some name ∧
      d.classNamed? name = some target ∧ kind = .containment target := by
  rw [resolveKind, hsort] at h
  obtain ⟨name, hname, h⟩ := bind_eq_ok_iff.mp h
  obtain ⟨target, htarget, h⟩ := bind_eq_ok_iff.mp h
  exact ⟨name, target, targetName_eq_ok_iff.mp hname, findClass_eq_ok_iff.mp htarget,
    (Except.ok.inj h).symm⟩

theorem sort_of_resolveKind {target : ClassId}
    (h : d.resolveKind c f = .ok (.containment target)) : f.sort = .containment := by
  rw [resolveKind] at h
  cases hsort : f.sort with
  | containment => rfl
  | string | integer | float | boolean | any =>
    rw [hsort] at h
    cases h
  | enum =>
    rw [hsort] at h
    obtain ⟨name, -, h⟩ := bind_eq_ok_iff.mp h
    split at h <;> cases h
  | reference =>
    rw [hsort] at h
    obtain ⟨name, -, h⟩ := bind_eq_ok_iff.mp h
    obtain ⟨target, -, h⟩ := bind_eq_ok_iff.mp h
    cases h

theorem isContainment_iff {g : Feature} (h : d.resolveKind c f = .ok g.kind) :
    g.isContainment = true ↔ f.sort = .containment := by
  constructor
  · intro hg
    rw [Feature.isContainment] at hg
    split at hg
    · next target htarget => exact sort_of_resolveKind (htarget ▸ h)
    · cases hg
  · intro hsort
    obtain ⟨name, target, -, -, hkind⟩ := exists_target_of_sort h hsort
    rw [Feature.isContainment, hkind]

end Kinds

/-! ### Features and their declarations -/

/-- All declarations of features, with the class that each stands in. -/
def declared (d : SchemaDefinition) : List ((ClassDefinition × ClassId) × FeatureDefinition) :=
  d.classes.zipIdx.flatMap fun entry => entry.1.features.map (entry, ·)

theorem mem_declared_iff {x : (ClassDefinition × ClassId) × FeatureDefinition} :
    x ∈ d.declared ↔ d.classes[x.1.2]? = some x.1.1 ∧ x.2 ∈ x.1.1.features := by
  obtain ⟨entry, f⟩ := x
  simp only [declared, mem_flatMap, mem_map, Prod.mk.injEq]
  constructor
  · rintro ⟨entry, hentry, f, hf, rfl, rfl⟩
    exact ⟨mem_zipIdx_iff_getElem?.mp hentry, hf⟩
  · rintro ⟨hentry, hf⟩
    exact ⟨entry, mem_zipIdx_iff_getElem?.mpr hentry, f, hf, rfl, rfl⟩

/-- A feature is what a declaration says. -/
structure Resolves (d : SchemaDefinition) (x : (ClassDefinition × ClassId) × FeatureDefinition)
    (g : Feature) : Prop where
  name : g.name = x.2.name
  owner : g.owner = x.1.2
  kind : d.resolveKind x.1.1 x.2 = .ok g.kind

theorem exists_resolveFeatures_iff :
    (∃ features, d.resolveFeatures = .ok features) ↔
      ∀ c ∈ d.classes, ∀ f ∈ c.features, d.TargetFits f := by
  have hrow (entry : ClassDefinition × ClassId) : (∃ row, d.ownFeatures entry = .ok row) ↔
      ∀ f ∈ entry.1.features, d.TargetFits f := by
    rw [ownFeatures, exists_mapM_iff]
    refine forall₂_congr fun f _ => ?_
    rw [← exists_resolveKind_iff (c := entry.1)]
    simp only [bind_eq_ok_iff]
    exact ⟨fun ⟨_, kind, hkind, _⟩ => ⟨kind, hkind⟩, fun ⟨kind, hkind⟩ => ⟨_, kind, hkind, rfl⟩⟩
  have hflat : (∃ features, d.resolveFeatures = .ok features) ↔
      ∃ rows, d.classes.zipIdx.mapM d.ownFeatures = .ok rows := by
    simp only [resolveFeatures, bind_eq_ok_iff]
    exact ⟨fun ⟨_, rows, hrows, _⟩ => ⟨rows, hrows⟩, fun ⟨rows, hrows⟩ => ⟨_, rows, hrows, rfl⟩⟩
  rw [hflat, exists_mapM_iff]
  simp only [hrow]
  conv_rhs => rw [← zipIdx_map_fst 0 d.classes]
  rw [forall_mem_map]

theorem filter_declared (hi : d.classes[i]? = some c) :
    d.declared.filter (·.1.2 == i) = c.features.map ((c, i), ·) := by
  obtain ⟨front, rest, hclasses, rfl⟩ : ∃ front rest, d.classes = front ++ c :: rest ∧
      front.length = i := by
    obtain ⟨hlt, rfl⟩ := List.getElem?_eq_some_iff.mp hi
    refine ⟨d.classes.take i, d.classes.drop (i + 1), ?_, length_take_of_le (Nat.le_of_lt hlt)⟩
    rw [getElem_cons_drop, take_append_drop]
  -- entries of other classes are left out
  have hother (entries : List (ClassDefinition × ClassId))
      (h : ∀ entry ∈ entries, entry.2 ≠ front.length) :
      (entries.flatMap fun entry => entry.1.features.map (entry, ·)).filter
        (·.1.2 == front.length) = [] := by
    refine filter_eq_nil_iff.mpr fun x hx => ?_
    obtain ⟨entry, hentry, hx⟩ := mem_flatMap.mp hx
    obtain ⟨f, -, rfl⟩ := mem_map.mp hx
    simpa using h entry hentry
  have hfront := hother front.zipIdx fun entry hentry =>
    Nat.ne_of_lt (snd_lt_of_mem_zipIdx hentry)
  have hrest := hother (rest.zipIdx (front.length + 1)) fun entry hentry =>
    Nat.ne_of_gt (le_snd_of_mem_zipIdx hentry)
  rw [declared, hclasses, zipIdx_append, zipIdx_cons, flatMap_append,
    flatMap_cons, filter_append, filter_append, Nat.zero_add, hfront, hrest,
    nil_append, append_nil, filter_eq_self]
  simp

theorem map_getD_range (features : List Feature) :
    (List.range features.length).map (features.getD · default) = features := by
  refine ext_getElem (by simp) fun f hf hf' => ?_
  rw [getElem_map, getElem_range, getD_eq_getElem]

theorem exists_mem_iff_of_forall₂ {R : α → β → Prop} {as : List α} {bs : List β}
    (h : List.Forall₂ R as bs) {P : α → Prop} {Q : β → Prop} (hPQ : ∀ a b, R a b → (P a ↔ Q b)) :
    (∃ a ∈ as, P a) ↔ ∃ b ∈ bs, Q b := by
  induction h with
  | nil => simp
  | cons hab _ ih => rw [exists_mem_cons_iff, exists_mem_cons_iff, hPQ _ _ hab, ih]

theorem map_filter_eq_of_forall₂ {γ : Type} {R : α → β → Prop} {as : List α} {bs : List β}
    (h : List.Forall₂ R as bs) {p : α → Bool} {q : β → Bool} {f : α → γ} {g : β → γ}
    (hpq : ∀ a b, R a b → p a = q b ∧ f a = g b) : (as.filter p).map f = (bs.filter q).map g := by
  induction h with
  | nil => rfl
  | cons hab _ ih =>
    obtain ⟨hp, hf⟩ := hpq _ _ hab
    rw [filter_cons, filter_cons, hp]
    split
    · rw [map_cons, map_cons, hf, ih]
    · exact ih

theorem map_filter_flatMap {γ : Type} (p : α → Bool) (parts : α → List β) (name : β → γ)
    (l : List α) :
    ((l.flatMap fun a => (parts a).map (a, ·)).filter fun x => p x.1).map (fun x => name x.2) =
      ((l.filter p).flatMap parts).map name := by
  induction l with
  | nil => rfl
  | cons a l ih =>
    rw [flatMap_cons, filter_append, map_append, ih, filter_cons]
    cases hp : p a <;> simp [filter_map, Function.comp_def, hp]

section Features

variable {features : List Feature} (hfeatures : d.resolveFeatures = .ok features)

include hfeatures

theorem forall₂_declared : List.Forall₂ d.Resolves d.declared features := by
  obtain ⟨rows, hrows, hflat⟩ := bind_eq_ok_iff.mp hfeatures
  cases hflat
  rw [mapM_eq_ok_iff] at hrows
  rw [declared]
  generalize d.classes.zipIdx = entries at hrows
  clear hfeatures
  induction hrows with
  | nil => exact .nil
  | cons hrow _ ih =>
    rw [flatMap_cons, flatten_cons]
    refine rel_append (forall₂_map_left_iff.mpr ?_) ih
    refine (mapM_eq_ok_iff.mp hrow).imp fun f g hg => ?_
    obtain ⟨kind, hkind, hg⟩ := bind_eq_ok_iff.mp hg
    cases hg
    exact ⟨rfl, rfl, hkind⟩

variable (hnames : (d.classes.map (·.name)).Nodup)
variable (hsupertypes : d.resolveSupertypes = .ok supertypes)
variable (hi : d.classes[i]? = some c)

include hnames hsupertypes hi

theorem exists_hasFeature_iff {P : Feature → Prop} {Q : FeatureDefinition → Prop}
    (hPQ : ∀ x g, d.Resolves x g → (Q x.2 ↔ P g)) :
    (∃ f, HasFeature features supertypes i f ∧ P (features.getD f default)) ↔
      ∃ f ∈ d.featuresOf c, Q f := by
  have hnumbered : (∃ f, HasFeature features supertypes i f ∧ P (features.getD f default)) ↔
      ∃ g ∈ features, ReflTransGen (Extends supertypes) i g.owner ∧ P g := by
    constructor
    · rintro ⟨f, ⟨hlt, hreach⟩, hP⟩
      rw [getD_eq_getElem _ _ hlt] at hreach hP
      exact ⟨features[f], getElem_mem hlt, hreach, hP⟩
    · rintro ⟨g, hg, hreach, hP⟩
      obtain ⟨f, hlt, rfl⟩ := mem_iff_getElem.mp hg
      rw [← getD_eq_getElem _ default hlt] at hreach hP
      exact ⟨f, ⟨hlt, hreach⟩, hP⟩
  rw [hnumbered, ← exists_mem_iff_of_forall₂ (forall₂_declared hfeatures)
    (P := fun x => ReflTransGen (Extends supertypes) i x.1.2 ∧ Q x.2)
    fun x g hg => by rw [hg.owner, hPQ x g hg]]
  constructor
  · rintro ⟨x, hx, hreach, hQ⟩
    obtain ⟨hp, hf⟩ := mem_declared_iff.mp hx
    exact ⟨x.2, mem_featuresOf_iff.mpr ⟨x.1.1, mem_of_getElem? hp,
      (reflTransGen_iff hnames hsupertypes hi hp).mp hreach, hf⟩, hQ⟩
  · rintro ⟨f, hf, hQ⟩
    obtain ⟨p, hp, hconforms, hf⟩ := mem_featuresOf_iff.mp hf
    obtain ⟨j, hj⟩ := mem_iff_getElem?.mp hp
    exact ⟨((p, j), f), mem_declared_iff.mpr ⟨hj, hf⟩,
      (reflTransGen_iff hnames hsupertypes hi hj).mpr hconforms, hQ⟩

theorem distinct_iff :
    (∀ f g, HasFeature features supertypes i f → HasFeature features supertypes i g →
      Lineage.nameOf features f = Lineage.nameOf features g → f = g) ↔
      ((d.featuresOf c).map (·.name)).Nodup := by
  classical
  have hnames' :
      (features.filter fun g => ReflTransGen (Extends supertypes) i g.owner).map (·.name) =
      ((List.range features.length).filter fun f =>
        ReflTransGen (Extends supertypes) i (features.getD f default).owner).map
          (Lineage.nameOf features) := by
    conv_lhs => rw [← map_getD_range features, List.filter_map, List.map_map]
    rfl
  have hclasses : (d.classes.zipIdx.filter fun entry =>
        decide (ReflTransGen (Extends supertypes) i entry.2)).map Prod.fst =
      d.classes.filter fun p => decide (d.Conforms c.name p.name) := by
    conv_rhs => rw [← zipIdx_map_fst 0 d.classes, filter_map]
    refine congrArg _ (filter_congr fun entry hentry => decide_eq_decide.mpr ?_)
    exact reflTransGen_iff hnames hsupertypes hi (mem_zipIdx_iff_getElem?.mp hentry)
  have hdeclared : (d.declared.filter fun x =>
        decide (ReflTransGen (Extends supertypes) i x.1.2)).map (·.2.name) =
      (d.featuresOf c).map (·.name) := by
    rw [featuresOf, ← hclasses, flatMap_map]
    exact map_filter_flatMap (fun entry => decide (ReflTransGen (Extends supertypes) i entry.2))
      (fun entry => entry.1.features) (·.name) d.classes.zipIdx
  have hresolved := map_filter_eq_of_forall₂ (forall₂_declared hfeatures)
    (q := fun g => decide (ReflTransGen (Extends supertypes) i g.owner))
    fun x g hg => ⟨by rw [hg.owner], hg.name.symm⟩
  rw [← hdeclared, hresolved, hnames', nodup_map_iff_inj_on (nodup_range.filter _)]
  simp only [mem_filter, mem_range, decide_eq_true_iff]
  exact ⟨fun h f hf g hg => h f g hf hg, fun h f g hf hg => h f hf g hg⟩

end Features

end SchemaDefinition

end CommandText
