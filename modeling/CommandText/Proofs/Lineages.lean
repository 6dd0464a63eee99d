import CommandText.Proofs.InheritanceOrder
import Mathlib.Data.List.Induction
import Mathlib.Data.List.Nodup

/-!
# Exact lineages

Lineages are worked out class by class in inheritance order, each from those of the supertypes. What
a lineage holds does not show this: the ancestors of a class are the classes it reaches by any
number of steps to a supertype, and its features are those that one of them declares, each once, in
whatever way inheritance branches and joins. So whether the work succeeds can be told class by class
from the features that a class has.
-/

namespace CommandText

open List Relation CommandText.Except

variable {f : FeatureId} {parents : List Lineage}

/-! ### Lists without repetition -/

theorem nodup_addNew {xs : List Nat} (h : xs.Nodup) (ys : List Nat) : (addNew xs ys).Nodup := by
  induction ys generalizing xs with
  | nil => exact h
  | cons y ys ih =>
    rw [addNew, foldl_cons, ← addNew]
    split
    · exact ih h
    · next hy =>
      refine ih (nodup_append.mpr ⟨h, by simp, ?_⟩)
      simpa using fun x hx => ne_of_mem_of_not_mem hx (by simpa using hy)

theorem nodup_foldl_addNew {α : Type} {part : α → List Nat} (ps : List α) {xs : List Nat}
    (h : xs.Nodup) : (ps.foldl (fun xs p => addNew xs (part p)) xs).Nodup := by
  induction ps generalizing xs with
  | nil => exact h
  | cons p ps ih => exact ih (nodup_addNew h (part p))

theorem Lineage.repeatedName?_eq_none_iff {seen names : List String} :
    repeatedName? seen names = none ↔ names.Nodup ∧ ∀ name ∈ names, name ∉ seen := by
  fun_induction repeatedName? seen names with
  | case1 => simp
  | case2 seen name names hmem => simpa using fun _ _ h => absurd hmem (by simpa using h)
  | case3 seen name names hmem ih =>
    rw [ih, nodup_cons, forall_mem_cons]
    have hname : name ∉ seen := by simpa using hmem
    constructor
    · rintro ⟨hnodup, hnew⟩
      refine ⟨⟨fun h => hnew name h mem_cons_self, hnodup⟩, hname, fun n hn => ?_⟩
      exact fun h => hnew n hn (mem_cons_of_mem name h)
    · rintro ⟨⟨hname', hnodup⟩, -, hnew⟩
      refine ⟨hnodup, fun n hn h => ?_⟩
      rcases mem_cons.mp h with rfl | h
      · exact hname' hn
      · exact hnew n hn h

/-! ### Features of a class -/

/-- A class, or one that it inherits from, declares a feature. -/
def HasFeature (features : List Feature) (supertypes : List (List ClassId)) (c : ClassId)
    (f : FeatureId) : Prop :=
  f < features.length ∧ ReflTransGen (Extends supertypes) c (features.getD f default).owner

namespace Lineage

variable {features : List Feature} {supertypes : List (List ClassId)} {id : ClassId}

/-- A lineage holds the ancestors and features of a class. -/
structure Exact (features : List Feature) (supertypes : List (List ClassId)) (id : ClassId)
    (l : Lineage) : Prop where
  ancestors : ∀ d, d ∈ l.ancestors ↔ ReflTransGen (Extends supertypes) id d
  features : ∀ f, f ∈ l.features ↔ HasFeature features supertypes id f
  nodup : l.features.Nodup

/-- What is checked of a class. -/
structure Fine (features : List Feature) (supertypes : List (List ClassId)) (id : ClassId)
    (c : ClassDefinition) : Prop where
  distinct : ∀ f g, HasFeature features supertypes id f → HasFeature features supertypes id g →
    nameOf features f = nameOf features g → f = g
  unlabeled : ∀ names ∈ c.unlabeled, ∀ name ∈ names, ∃ f, HasFeature features supertypes id f ∧
    nameOf features f = name ∧ (features.getD f default).isContainment = false
  backward : ∀ name ∈ c.backward, ∃ f, HasFeature features supertypes id f ∧
    nameOf features f = name

/-- The features that a class declares itself. -/
def own (features : List Feature) (id : ClassId) : List FeatureId :=
  (List.range features.length).filter fun f => (features.getD f default).owner == id

theorem mem_own_iff :
    f ∈ own features id ↔ f < features.length ∧ (features.getD f default).owner = id := by
  simp [own]

theorem derive_eq_ok_iff {c : ClassDefinition} {l : Lineage} :
    derive features c id parents = .ok l ↔
      ((inherited parents (own features id)).map (nameOf features)).Nodup ∧
      ∃ unlabeled, unlabeledOf features c parents (inherited parents (own features id)) =
        .ok unlabeled ∧
      ∃ backward, backwardOf features c parents (inherited parents (own features id)) =
        .ok backward ∧
      ⟨parents.foldl (fun cs p => addNew cs p.ancestors) [id], inherited parents (own features id),
        unlabeled, backward⟩ = l := by
  have hnodup : repeatedName? [] ((inherited parents (own features id)).map (nameOf features)) =
      none ↔ ((inherited parents (own features id)).map (nameOf features)).Nodup := by
    rw [repeatedName?_eq_none_iff]
    exact and_iff_left (by simp)
  rw [derive, ← own, ← hnodup]
  split
  · next name hname => simp [hname]
  · next hnone => simp [hnone, bind_eq_ok_iff]

section Step

variable {lineageOf : ClassId → Lineage}
  (hparents : ∀ p, Extends supertypes id p → (lineageOf p).Exact features supertypes p)
variable {c : ClassDefinition} {among : List FeatureId}

/-- The features of a class, put together from those of its supertypes. -/
abbrev all (features : List Feature) (supertypes : List (List ClassId)) (id : ClassId)
    (lineageOf : ClassId → Lineage) : List FeatureId :=
  inherited ((supertypesOf supertypes id).map lineageOf) (own features id)

include hparents

theorem mem_all_iff :
    f ∈ all features supertypes id lineageOf ↔ HasFeature features supertypes id f := by
  rw [all, inherited, mem_append, mem_foldl_addNew, mem_own_iff, HasFeature]
  simp only [not_mem_nil, false_or, mem_map,
    exists_exists_and_eq_and]
  constructor
  · rintro (⟨p, hp, hf⟩ | ⟨hlt, howner⟩)
    · obtain ⟨hlt, hreach⟩ := ((hparents p hp).features f).mp hf
      exact ⟨hlt, .head hp hreach⟩
    · exact ⟨hlt, howner ▸ .refl⟩
  · rintro ⟨hlt, hreach⟩
    rcases hreach.cases_head with howner | ⟨p, hp, hreach⟩
    · exact .inr ⟨hlt, howner.symm⟩
    · exact .inl ⟨p, hp, ((hparents p hp).features f).mpr ⟨hlt, hreach⟩⟩

section

variable (hself : ¬ TransGen (Extends supertypes) id id)
include hself

theorem nodup_all : (all features supertypes id lineageOf).Nodup := by
  rw [all, inherited, nodup_append]
  refine ⟨nodup_foldl_addNew _ nodup_nil, nodup_range.filter _, ?_⟩
  rintro f hf g hg rfl
  simp only [mem_foldl_addNew, not_mem_nil, false_or, mem_map,
    exists_exists_and_eq_and] at hf
  obtain ⟨p, hp, hf⟩ := hf
  obtain ⟨-, hreach⟩ := ((hparents p hp).features f).mp hf
  rw [(mem_own_iff.mp hg).2] at hreach
  exact hself (.head' hp hreach)

theorem exact_derive {l : Lineage}
    (h : derive features c id ((supertypesOf supertypes id).map lineageOf) = .ok l) :
    l.Exact features supertypes id := by
  obtain ⟨-, unlabeled, -, backward, -, rfl⟩ := derive_eq_ok_iff.mp h
  refine ⟨fun d => ?_, fun f => mem_all_iff hparents, nodup_all hparents hself⟩
  simp only [mem_foldl_addNew, mem_singleton, mem_map, exists_exists_and_eq_and]
  constructor
  · rintro (rfl | ⟨p, hp, hd⟩)
    · exact .refl
    · exact .head hp (((hparents p hp).ancestors d).mp hd)
  · intro hreach
    rcases hreach.cases_head with rfl | ⟨p, hp, hreach⟩
    · exact .inl rfl
    · exact .inr ⟨p, hp, ((hparents p hp).ancestors d).mpr hreach⟩

theorem nodup_names_iff :
    ((all features supertypes id lineageOf).map (nameOf features)).Nodup ↔
      ∀ f g, HasFeature features supertypes id f → HasFeature features supertypes id g →
        nameOf features f = nameOf features g → f = g := by
  rw [nodup_map_iff_inj_on (nodup_all hparents hself)]
  simp only [mem_all_iff hparents]
  exact ⟨fun h f g hf hg => h f hf g hg, fun h f hf g hg => h f g hf hg⟩

end

omit hparents in
theorem named?_eq_some_iff (hnames : (among.map (nameOf features)).Nodup) {name : String} :
    named? features among name = some f ↔ f ∈ among ∧ nameOf features f = name := by
  constructor
  · intro h
    exact ⟨mem_of_find?_eq_some h, by simpa using find?_some h⟩
  · rintro ⟨hf, rfl⟩
    cases hfind : named? features among (nameOf features f) with
    | none => exact absurd (find?_eq_none.mp hfind f hf) (by simp)
    | some g =>
      have hname : nameOf features g = nameOf features f := by simpa using find?_some hfind
      exact congrArg some (inj_on_of_nodup_map hnames (mem_of_find?_eq_some hfind) hf hname)

omit hparents in
theorem exists_unlabeledOf_iff (hnames : (among.map (nameOf features)).Nodup) :
    (∃ unlabeled, unlabeledOf features c parents among = .ok unlabeled) ↔
      ∀ names ∈ c.unlabeled, ∀ name ∈ names, ∃ f ∈ among, nameOf features f = name ∧
        (features.getD f default).isContainment = false := by
  rw [unlabeledOf]
  cases hc : c.unlabeled with
  | none => simp
  | some names =>
    rw [exists_mapM_iff]
    simp only [Option.mem_some_iff, forall_eq']
    refine forall₂_congr fun name _ => ?_
    have hfilter (f : FeatureId) : (named? features among name).filter
        (fun f => !(features.getD f default).isContainment) = some f ↔
          (f ∈ among ∧ nameOf features f = name) ∧
          (features.getD f default).isContainment = false := by
      rw [Option.filter_eq_some_iff, named?_eq_some_iff hnames, Bool.not_eq_true']
    split
    · next f hf =>
      obtain ⟨⟨hmem, hname⟩, hkind⟩ := (hfilter f).mp hf
      exact iff_of_true ⟨f, rfl⟩ ⟨f, hmem, hname, hkind⟩
    · next hnone =>
      refine iff_of_false (by rintro ⟨f, ⟨⟩⟩) ?_
      rintro ⟨f, hmem, hname, hkind⟩
      rw [(hfilter f).mpr ⟨⟨hmem, hname⟩, hkind⟩] at hnone
      cases hnone

omit hparents in
theorem exists_backwardOf_iff (hnames : (among.map (nameOf features)).Nodup) :
    (∃ backward, backwardOf features c parents among = .ok backward) ↔
      ∀ name ∈ c.backward, ∃ f ∈ among, nameOf features f = name := by
  rw [backwardOf]
  cases hc : c.backward with
  | none => simp
  | some name =>
    simp only [Option.mem_some_iff, forall_eq']
    split
    · next hsome =>
      obtain ⟨f, hf⟩ := Option.isSome_iff_exists.mp hsome
      exact iff_of_true ⟨_, rfl⟩ ⟨f, (named?_eq_some_iff hnames).mp hf⟩
    · next hnone =>
      refine iff_of_false (by rintro ⟨f, ⟨⟩⟩) ?_
      rintro ⟨f, hf⟩
      exact hnone (Option.isSome_iff_exists.mpr ⟨f, (named?_eq_some_iff hnames).mpr hf⟩)

theorem exists_derive_iff (hself : ¬ TransGen (Extends supertypes) id id) :
    (∃ l, derive features c id ((supertypesOf supertypes id).map lineageOf) = .ok l) ↔
      Fine features supertypes id c := by
  simp only [derive_eq_ok_iff]
  constructor
  · rintro ⟨l, hnames, unlabeled, hunlabeled, backward, hbackward, -⟩
    have hknown := (exists_unlabeledOf_iff hnames).mp ⟨unlabeled, hunlabeled⟩
    have hnamed := (exists_backwardOf_iff hnames).mp ⟨backward, hbackward⟩
    simp only [mem_all_iff hparents] at hknown hnamed
    exact ⟨(nodup_names_iff hparents hself).mp hnames, hknown, hnamed⟩
  · intro hfine
    have hnames := (nodup_names_iff hparents hself).mpr hfine.distinct
    have hknown := hfine.unlabeled
    have hnamed := hfine.backward
    simp only [← mem_all_iff hparents] at hknown hnamed
    obtain ⟨unlabeled, hunlabeled⟩ := (exists_unlabeledOf_iff hnames).mpr hknown
    obtain ⟨backward, hbackward⟩ := (exists_backwardOf_iff hnames).mpr hnamed
    exact ⟨_, hnames, unlabeled, hunlabeled, backward, hbackward, rfl⟩

end Step

/-! ### All classes -/

section Table

variable {classes : List ClassDefinition} {order : List ClassId}
variable {table : Table}

theorem deriveAll_append_singleton {c : ClassId} {cls : ClassDefinition}
    (hcls : classes[c]? = some cls) (table' : Table) :
    deriveAll features classes supertypes (order ++ [c]) = .ok table' ↔
      ∃ table, deriveAll features classes supertypes order = .ok table ∧
        ∃ l, derive features cls c ((supertypesOf supertypes c).map table.at) = .ok l ∧
          (c, l) :: table = table' := by
  rw [deriveAll, foldlM_append, bind_eq_ok_iff]
  refine exists_congr fun table => and_congr Iff.rfl ?_
  simp [hcls, bind_eq_ok_iff]

theorem Table.at_cons_self (c : ClassId) (l : Lineage) (table : Table) :
    Table.at ((c, l) :: table) c = l := by
  simp [Table.at]

theorem Table.at_cons_of_ne {c d : ClassId} (h : d ≠ c) (l : Lineage) (table : Table) :
    Table.at ((c, l) :: table) d = table.at d := by
  have hne : (d == c) = false := by simpa using h
  rw [Table.at, Table.at, lookup_cons, hne]

theorem exact_deriveAll (horder : Topological supertypes order)
    (hclasses : ∀ c ∈ order, c < classes.length)
    (h : deriveAll features classes supertypes order = .ok table) :
    ∀ c ∈ order, (table.at c).Exact features supertypes c := by
  induction order using List.reverseRecOn generalizing table with
  | nil => simp
  | append_singleton order c ih =>
    have hc : c ∉ order := fun hc =>
      (nodup_append.mp horder.nodup).2.2 c hc c mem_cons_self rfl
    have hlt : c < classes.length := hclasses c (by simp)
    obtain ⟨before, hbefore, l, hl, rfl⟩ :=
      (deriveAll_append_singleton (getElem?_eq_getElem hlt) table).mp h
    have hexact := ih horder.of_append (fun d hd => hclasses d (mem_append_left _ hd)) hbefore
    have hparents (p : ClassId) (hp : Extends supertypes c p) :
        (before.at p).Exact features supertypes p := hexact p (horder.after order c [] rfl p hp)
    intro d hd
    rcases mem_append.mp hd with hd | hd
    · rw [Table.at_cons_of_ne (ne_of_mem_of_not_mem hd hc)]
      exact hexact d hd
    · obtain rfl := mem_singleton.mp hd
      rw [Table.at_cons_self]
      exact exact_derive hparents (horder.not_transGen (by simp)) hl

theorem nodup_names_deriveAll (h : deriveAll features classes supertypes order = .ok table) :
    ∀ entry ∈ table, (entry.2.features.map (nameOf features)).Nodup := by
  rw [deriveAll] at h
  refine of_foldlM
    (P := fun table => ∀ entry ∈ table, (entry.2.features.map (nameOf features)).Nodup) ?_
    (by simp) h
  intro table id next htable hnext
  split at hnext
  · cases hnext
    exact htable
  · obtain ⟨l, hl, hnext⟩ := bind_eq_ok_iff.mp hnext
    cases hnext
    obtain ⟨hnames, _, -, _, -, rfl⟩ := derive_eq_ok_iff.mp hl
    exact forall_mem_cons.mpr ⟨hnames, htable⟩

theorem own_suffix_deriveAll (h : deriveAll features classes supertypes order = .ok table) :
    ∀ entry ∈ table, own features entry.1 <:+ entry.2.features := by
  rw [deriveAll] at h
  refine of_foldlM (P := fun table => ∀ entry ∈ table,
    own features entry.1 <:+ entry.2.features) ?_ (by simp) h
  intro table id next htable hnext
  split at hnext
  · cases hnext
    exact htable
  · obtain ⟨l, hl, hnext⟩ := bind_eq_ok_iff.mp hnext
    cases hnext
    obtain ⟨-, _, -, _, -, rfl⟩ := derive_eq_ok_iff.mp hl
    exact forall_mem_cons.mpr ⟨suffix_append _ _, htable⟩

theorem Exact.mem_table (h : (table.at id).Exact features supertypes id) :
    (id, table.at id) ∈ table := by
  have hself := (h.ancestors id).mpr .refl
  rw [Table.at] at hself ⊢
  cases hlookup : table.lookup id with
  | none =>
    rw [hlookup] at hself
    cases hself
  | some l =>
    obtain ⟨before, after, rfl, -⟩ := lookup_eq_some_iff.mp hlookup
    simp

theorem exists_deriveAll_iff (horder : Topological supertypes order)
    (hclasses : ∀ c ∈ order, c < classes.length) :
    (∃ table, deriveAll features classes supertypes order = .ok table) ↔
      ∀ c ∈ order, ∀ cls, classes[c]? = some cls → Fine features supertypes c cls := by
  induction order using List.reverseRecOn with
  | nil => simp [deriveAll, pure, Except.pure]
  | append_singleton order c ih =>
    have hbefore : ∀ d ∈ order, d < classes.length :=
      fun d hd => hclasses d (mem_append_left _ hd)
    have hcls := getElem?_eq_getElem (hclasses c (by simp))
    have hself : ¬ TransGen (Extends supertypes) c c := horder.not_transGen (by simp)
    have hparents {table : Table} (h : deriveAll features classes supertypes order = .ok table)
        (p : ClassId) (hp : Extends supertypes c p) : (table.at p).Exact features supertypes p :=
      exact_deriveAll horder.of_append hbefore h p (horder.after order c [] rfl p hp)
    simp only [deriveAll_append_singleton hcls, forall_mem_append, forall_mem_singleton,
      ← ih horder.of_append hbefore, hcls, Option.some.injEq, forall_eq']
    constructor
    · rintro ⟨-, table, htable, l, hl, -⟩
      exact ⟨⟨table, htable⟩, (exists_derive_iff (hparents htable) hself).mp ⟨l, hl⟩⟩
    · rintro ⟨⟨table, htable⟩, hfine⟩
      obtain ⟨l, hl⟩ := (exists_derive_iff (hparents htable) hself).mpr hfine
      exact ⟨_, table, htable, l, hl, rfl⟩

end Table

end Lineage

end CommandText
