import CommandText.Schema.Build
import Mathlib.Data.List.Forall2
import Mathlib.Tactic.Common

/-!
# Features of an accepted schema

What a schema that was built from a definition guarantees about the features of its classes. The
arguments that are given by position are listed by the class itself or come from a supertype; in
both cases they are features of the class and no containments. Nothing else about a schema has to
be checked again when a text is turned into elements.
-/

namespace CommandText

open List Lineage

variable {α β ε : Type} {as : List α} {bs : List β} {f : α → Except ε β} {b : β}

theorem Except.bind_eq_ok_iff {x : Except ε α} :
    x >>= f = .ok b ↔ ∃ a, x = .ok a ∧ f a = .ok b := by
  cases x with
  | error e => simp [bind, Except.bind]
  | ok a => simp [bind, Except.bind]

theorem Except.forall_mem_of_mapM {P : β → Prop} (hf : ∀ a b, f a = .ok b → P b)
    (h : as.mapM f = .ok bs) : ∀ b ∈ bs, P b := by
  induction as generalizing bs with
  | nil =>
    cases h
    simp
  | cons a as ih =>
    rw [mapM_cons] at h
    obtain ⟨b, hb, h⟩ := Except.bind_eq_ok_iff.mp h
    obtain ⟨bs', hbs', h⟩ := Except.bind_eq_ok_iff.mp h
    cases h
    exact forall_mem_cons.mpr ⟨hf a b hb, ih hbs'⟩

theorem Except.mapM_eq_ok_iff :
    as.mapM f = .ok bs ↔ List.Forall₂ (fun a b => f a = .ok b) as bs := by
  induction as generalizing bs with
  | nil => simp [pure, Except.pure, eq_comm]
  | cons a as ih =>
    rw [mapM_cons, Except.bind_eq_ok_iff, forall₂_cons_left_iff]
    refine exists_congr fun b => ?_
    simp only [Except.bind_eq_ok_iff, ih, pure, Except.pure, Except.ok.injEq]
    constructor
    · rintro ⟨hb, bs, hbs, rfl⟩
      exact ⟨bs, hb, hbs, rfl⟩
    · rintro ⟨bs, hb, hbs, rfl⟩
      exact ⟨hb, bs, hbs, rfl⟩

theorem Except.mem_mapM_iff (h : as.mapM f = .ok bs) : b ∈ bs ↔ ∃ a ∈ as, f a = .ok b := by
  rw [Except.mapM_eq_ok_iff] at h
  induction h with
  | nil => simp
  | cons hb _ ih =>
    rw [mem_cons, exists_mem_cons_iff, ih, hb, Except.ok.injEq]
    exact or_congr eq_comm Iff.rfl

theorem Except.exists_mapM_iff : (∃ bs, as.mapM f = .ok bs) ↔ ∀ a ∈ as, ∃ b, f a = .ok b := by
  simp only [Except.mapM_eq_ok_iff]
  induction as with
  | nil => simp
  | cons a as ih =>
    rw [forall_mem_cons, ← ih]
    simp only [forall₂_cons_left_iff]
    constructor
    · rintro ⟨-, b, bs, hb, hbs, -⟩
      exact ⟨⟨b, hb⟩, bs, hbs⟩
    · rintro ⟨⟨b, hb⟩, bs, hbs⟩
      exact ⟨b :: bs, b, bs, hb, hbs, rfl⟩

theorem Except.of_foldlM {f : β → α → Except ε β} {P : β → Prop}
    (hf : ∀ b a b', P b → f b a = .ok b' → P b') {b' : β} (hb : P b) (h : as.foldlM f b = .ok b') :
    P b' := by
  induction as generalizing b with
  | nil =>
    cases h
    exact hb
  | cons a as ih =>
    rw [foldlM_cons] at h
    obtain ⟨next, hnext, h⟩ := Except.bind_eq_ok_iff.mp h
    exact ih (hf b a next hb hnext) h

/-! ### Lineages -/

theorem mem_addNew_iff {xs ys : List Nat} {x : Nat} : x ∈ addNew xs ys ↔ x ∈ xs ∨ x ∈ ys := by
  induction ys generalizing xs with
  | nil => simp [addNew]
  | cons y ys ih =>
    rw [addNew, foldl_cons, ← addNew, ih]
    split
    · next h =>
      have hy : y ∈ xs := by simpa using h
      constructor
      · rintro (h | h)
        · exact .inl h
        · exact .inr (mem_cons_of_mem _ h)
      · rintro (h | h)
        · exact .inl h
        · rcases mem_cons.mp h with rfl | h
          · exact .inl hy
          · exact .inr h
    · simp [or_assoc]

theorem mem_foldl_addNew {part : α → List Nat} {ps : List α} {xs : List Nat} {x : Nat} :
    x ∈ ps.foldl (fun xs p => addNew xs (part p)) xs ↔ x ∈ xs ∨ ∃ p ∈ ps, x ∈ part p := by
  induction ps generalizing xs with
  | nil => simp
  | cons p ps ih => rw [foldl_cons, ih, mem_addNew_iff, or_assoc, exists_mem_cons_iff]

namespace Lineage

variable {features : List Feature} {parents : List Lineage}

/-- The arguments given by position are features, and no containments. -/
def Sound (features : List Feature) (l : Lineage) : Prop :=
  ∀ f ∈ l.unlabeled, f ∈ l.features ∧ (features.getD f default).isContainment = false

theorem mem_inherited {own : List FeatureId} {p : Lineage} (hp : p ∈ parents) {f : FeatureId}
    (hf : f ∈ p.features) : f ∈ inherited parents own := by
  rw [inherited, mem_append, mem_foldl_addNew]
  exact .inl (.inr ⟨p, hp, hf⟩)

theorem sound_unlabeledOf {c : ClassDefinition} (hparents : ∀ p ∈ parents, p.Sound features)
    {own : List FeatureId} {unlabeled : List FeatureId}
    (h : unlabeledOf features c parents (inherited parents own) = .ok unlabeled) :
    ∀ f ∈ unlabeled, f ∈ inherited parents own ∧
      (features.getD f default).isContainment = false := by
  rw [unlabeledOf] at h
  split at h
  · refine Except.forall_mem_of_mapM (fun name f hf => ?_) h
    split at hf
    · next g hg =>
      cases hf
      obtain ⟨hnamed, hkind⟩ := Option.filter_eq_some_iff.mp hg
      exact ⟨mem_of_find?_eq_some hnamed, by simpa using hkind⟩
    · cases hf
  · cases h
    intro f hf
    obtain ⟨unlabeled, hfind, hf⟩ : ∃ u, (parents.map (·.unlabeled)).find? (!·.isEmpty) = some u ∧
        f ∈ u := by
      cases hfind : (parents.map (·.unlabeled)).find? (!·.isEmpty) with
      | none => simp [hfind] at hf
      | some u => exact ⟨u, rfl, by simpa [hfind] using hf⟩
    obtain ⟨p, hp, rfl⟩ := mem_map.mp (mem_of_find?_eq_some hfind)
    obtain ⟨hmem, hkind⟩ := hparents p hp f hf
    exact ⟨mem_inherited hp hmem, hkind⟩

theorem sound_derive {c : ClassDefinition} {id : ClassId}
    (hparents : ∀ p ∈ parents, p.Sound features) {l : Lineage}
    (h : derive features c id parents = .ok l) : l.Sound features := by
  rw [derive] at h
  split at h
  · cases h
  · obtain ⟨unlabeled, hunlabeled, h⟩ := Except.bind_eq_ok_iff.mp h
    obtain ⟨backward, -, h⟩ := Except.bind_eq_ok_iff.mp h
    cases h
    exact sound_unlabeledOf hparents hunlabeled

theorem sound_at {table : Table} (h : ∀ entry ∈ table, entry.2.Sound features) (c : ClassId) :
    (table.at c).Sound features := by
  rw [Table.at]
  cases hlookup : table.lookup c with
  | none => simp [Sound, default, instInhabitedLineage.default]
  | some l =>
    obtain ⟨before, after, rfl, -⟩ := lookup_eq_some_iff.mp hlookup
    exact h (c, l) (by simp)

theorem sound_deriveAll {classes : List ClassDefinition} {supertypes : List (List ClassId)}
    {order : List ClassId} {table : Table}
    (h : deriveAll features classes supertypes order = .ok table) :
    ∀ entry ∈ table, entry.2.Sound features := by
  rw [deriveAll] at h
  -- the lineages entered so far are sound at every step
  refine Except.of_foldlM (P := fun table => ∀ entry ∈ table, entry.2.Sound features) ?_
    (by simp) h
  intro table id next htable hnext
  split at hnext
  · cases hnext
    exact htable
  · obtain ⟨l, hl, hnext⟩ := Except.bind_eq_ok_iff.mp hnext
    cases hnext
    refine forall_mem_cons.mpr ⟨sound_derive (fun p hp => ?_) hl, htable⟩
    obtain ⟨c, -, rfl⟩ := mem_map.mp hp
    exact sound_at htable c

end Lineage

/-! ### Schemas -/

namespace Schema

variable {s : Schema}

theorem lt_length_of_conforms {c d : ClassId} (h : s.conforms c d = true) :
    c < s.classes.length := by
  by_contra hc
  have hnone : s.classes[c]? = none := getElem?_eq_none (Nat.le_of_not_lt hc)
  rw [conforms, classAt, getD_eq_getElem?_getD, hnone, Option.getD_none] at h
  cases h

/-- The schema comes from a definition. -/
def Accepted (s : Schema) : Prop := ∃ d : SchemaDefinition, d.build = .ok s

theorem withCommands_spec {t : Schema} (h : s.withCommands = .ok t) :
    t.features = s.features ∧ ∀ c ∈ t.classes, ∃ c' ∈ s.classes,
      c.features = c'.features ∧ c.unlabeled = c'.unlabeled := by
  rw [withCommands] at h
  obtain ⟨roots, -, h⟩ := Except.bind_eq_ok_iff.mp h
  obtain ⟨tables, -, h⟩ := Except.bind_eq_ok_iff.mp h
  cases h
  refine ⟨rfl, fun c hc => ?_⟩
  obtain ⟨⟨c', commands⟩, hmem, rfl⟩ := mem_map.mp hc
  exact ⟨c', (of_mem_zip hmem).1, rfl, rfl⟩

theorem Accepted.exists_draft (h : s.Accepted) :
    ∃ (d : SchemaDefinition) (supertypes : List (List ClassId)) (order : List ClassId)
      (table : Lineage.Table) (draft : Schema),
      deriveAll draft.features d.classes supertypes order = .ok table ∧
      draft.classes = d.classes.zipIdx.map (SchemaDefinition.classOf supertypes table) ∧
      draft.withCommands = .ok s := by
  obtain ⟨d, hd⟩ := h
  rw [SchemaDefinition.build] at hd
  obtain ⟨pattern, -, hd⟩ := Except.bind_eq_ok_iff.mp hd
  obtain ⟨-, -, hd⟩ := Except.bind_eq_ok_iff.mp hd
  obtain ⟨-, -, hd⟩ := Except.bind_eq_ok_iff.mp hd
  obtain ⟨supertypes, -, hd⟩ := Except.bind_eq_ok_iff.mp hd
  obtain ⟨order, -, hd⟩ := Except.bind_eq_ok_iff.mp hd
  obtain ⟨features, -, hd⟩ := Except.bind_eq_ok_iff.mp hd
  obtain ⟨table, htable, hd⟩ := Except.bind_eq_ok_iff.mp hd
  exact ⟨d, supertypes, order, table, _, htable, rfl, hd⟩

theorem Accepted.mem_arguments (h : s.Accepted) {c : ClassId} {f : FeatureId}
    (hf : f ∈ s.unlabeledArguments c) : f ∈ s.arguments c := by
  obtain ⟨d, supertypes, order, table, draft, htable, hdraft, h⟩ := h.exists_draft
  obtain ⟨hfeatures, hclasses⟩ := withCommands_spec h
  rw [unlabeledArguments, classAt] at hf
  rw [arguments, mem_filter, featuresOf, classAt, featureAt, hfeatures]
  cases hc : s.classes[c]? with
  | none => simp [hc, default, instInhabitedClass.default] at hf
  | some cls =>
    obtain ⟨cls', hmem, hf', hu'⟩ := hclasses cls (mem_of_getElem? hc)
    rw [hdraft] at hmem
    obtain ⟨entry, -, rfl⟩ := mem_map.mp hmem
    rw [getD_eq_getElem?_getD, hc, Option.getD_some] at hf ⊢
    rw [hf']
    rw [hu'] at hf
    obtain ⟨hmem, hkind⟩ := sound_at (sound_deriveAll htable) entry.2 f hf
    exact ⟨hmem, by simpa using hkind⟩

end Schema

end CommandText
