import CommandText.Proofs.ArgumentEffects
import CommandText.Proofs.InstantiatedModel
import CommandText.Proofs.SparedValues

/-!
# Proxies and the references that are noted

A reference is kept twice: as a proxy among the values of its feature, and as an entry that names
element, feature and target. Both are written for each value of an argument, and nothing that is
done later touches either of them, so the two always agree. The entries name features by text: that
they can be told apart by it rests on the names of the features of a class being distinct.
-/

namespace CommandText

open List

/-- A feature that refers to elements. -/
def Feature.IsReference (f : Feature) : Prop := ∃ target, f.kind = .reference target

namespace Feature.IsReference

variable {f : Feature}

theorem isContainment (h : f.IsReference) : f.isContainment = false := by
  obtain ⟨target, hkind⟩ := h
  rw [Feature.isContainment, hkind]

theorem dataType? (h : f.IsReference) : f.dataType? = none := by
  obtain ⟨target, hkind⟩ := h
  rw [Feature.dataType?, hkind]

end Feature.IsReference

theorem Value.proxy?_eq_some_iff {v : Value} {target : String} :
    v.proxy? = some target ↔ v = .proxy target := by
  cases v <;> simp [proxy?]

theorem Schema.isReference_of_takes {s : Schema} {f : Feature} {target : String}
    (h : s.takes f.kind (.proxy target) = true) : f.IsReference := by
  cases hkind : f.kind with
  | reference c => exact ⟨c, hkind⟩
  | containment c =>
    rw [hkind] at h
    cases h
  | data d =>
    rw [hkind] at h
    cases d <;> cases h

/-! ### Entries -/

/-- The targets noted for a feature of an element, in order. -/
def targetsOf (us : List Unresolved) (id : ElementId) (name : String) : List String :=
  (us.filter fun u => u.element = id ∧ u.feature = name).map (·.target)

theorem targetsOf_append (us vs : List Unresolved) (id : ElementId) (name : String) :
    targetsOf (us ++ vs) id name = targetsOf us id name ++ targetsOf vs id name := by
  rw [targetsOf, filter_append, map_append, targetsOf, targetsOf]

theorem targetsOf_eq_nil {us : List Unresolved} {id : ElementId} {name : String}
    (h : ∀ u ∈ us, u.element = id → u.feature ≠ name) : targetsOf us id name = [] := by
  rw [targetsOf, map_eq_nil_iff, filter_eq_nil_iff]
  intro u hu hmatch
  obtain ⟨helement, hname⟩ := of_decide_eq_true hmatch
  exact h u hu helement hname

theorem targetsOf_links (s : Schema) (id : ElementId) (f : FeatureId) (vs : List Value) :
    targetsOf (s.links id f vs) id (s.featureAt f).name = vs.filterMap Value.proxy? := by
  have hall : ∀ u ∈ s.links id f vs,
      decide (u.element = id ∧ u.feature = (s.featureAt f).name) = true := by
    intro u hu
    obtain ⟨target, -, rfl⟩ := mem_map.mp hu
    simp
  rw [targetsOf, filter_eq_self.mpr hall, Schema.links, map_map]
  exact map_id _

/-! ### Models -/

namespace Model

variable {s : Schema} {m m' : Model} {us : List Unresolved} {id : ElementId}

/-- The proxies of a model are the references noted: for each reference of an element they are its
entries in order, and there are no other entries. -/
structure Linked (s : Schema) (m : Model) (us : List Unresolved) : Prop where
  targets : ∀ id, ∀ f ∈ s.featuresOf (m.classOf id), (s.featureAt f).IsReference →
    (m.values id f).filterMap Value.proxy? = targetsOf us id (s.featureAt f).name
  entries : ∀ u ∈ us, u.element < m.size ∧ ∃ f ∈ s.featuresOf (m.classOf u.element),
    (s.featureAt f).IsReference ∧ (s.featureAt f).name = u.feature

theorem linked_empty (s : Schema) : Linked s {} [] := ⟨fun _ _ _ _ => rfl, by simp⟩

theorem Linked.targetsOf_eq_nil (h : m.Linked s us) (hid : m.size ≤ id) (name : String) :
    targetsOf us id name = [] := by
  refine CommandText.targetsOf_eq_nil fun u hu helement => ?_
  exact absurd (helement ▸ (h.entries u hu).1) (Nat.not_lt.mpr hid)

theorem Linked.create (h : m.Linked s us) (c : ClassId) (line : Option Nat) :
    (m.create c line).Linked s us where
  targets j f hf href := by
    rw [values_create]
    by_cases hj : j = m.size
    · rw [m.values_eq_nil (Nat.le_of_eq hj.symm), h.targetsOf_eq_nil (Nat.le_of_eq hj.symm),
        filterMap_nil]
    · rw [classOf_create, if_neg hj] at hf
      exact h.targets j f hf href
  entries u hu := by
    obtain ⟨hlt, f, hf, href⟩ := h.entries u hu
    rw [size_create, classOf_create, if_neg (Nat.ne_of_lt hlt)]
    exact ⟨Nat.lt_succ_of_lt hlt, f, hf, href⟩

theorem Linked.store (hs : s.Accepted) (h : m.Linked s us) (hid : id < m.size) {f : FeatureId}
    (hf : f ∈ s.arguments (m.classOf id)) (tokens : List Token) :
    (m.fill id (s.storeValues f tokens)).Linked s
      (us ++ s.links id f (s.acceptedValues f tokens)) := by
  obtain ⟨hmem, -⟩ := s.mem_arguments_iff.mp hf
  refine ⟨fun j g hg href => ?_, fun u hu => ?_⟩
  · rw [classOf_fill] at hg
    rw [targetsOf_append, ← h.targets j g hg href, values_fill]
    by_cases hj : j = id
    · subst hj
      rw [if_pos ⟨rfl, hid⟩, s.get_storeValues]
      by_cases hgf : g = f
      · subst hgf
        rw [if_pos rfl, filterMap_append, targetsOf_links]
        rfl
      · -- features of one class are told apart by their names
        have hname : (s.featureAt f).name ≠ (s.featureAt g).name := fun heq =>
          hgf (inj_on_of_nodup_map (hs.nodup_names (m.classOf j)) hg hmem heq.symm)
        rw [if_neg hgf, CommandText.targetsOf_eq_nil, append_nil]
        · rfl
        · intro u hu _
          obtain ⟨target, -, rfl⟩ := mem_map.mp hu
          exact hname
    · rw [if_neg fun h => hj h.1, CommandText.targetsOf_eq_nil, append_nil]
      intro u hu helement
      obtain ⟨target, -, rfl⟩ := mem_map.mp hu
      exact absurd helement.symm hj
  · rw [size_fill, classOf_fill]
    rcases mem_append.mp hu with hu | hu
    · exact h.entries u hu
    · obtain ⟨target, htarget, rfl⟩ := mem_map.mp hu
      obtain ⟨v, hv, hproxy⟩ := mem_filterMap.mp htarget
      obtain rfl := Value.proxy?_eq_some_iff.mp hproxy
      have htakes := (s.holds_acceptedValues hf tokens).takes _ hv
      exact ⟨hid, f, hmem, Schema.isReference_of_takes htakes, rfl⟩

end Model

/-! ### Runs -/

open Model BuildM

/-- The proxies of a model in work are the references noted so far. -/
def Building.Linked {τ : Type} (s : Schema) (b : Building τ) : Prop :=
  b.model.Linked s b.unresolved

variable {τ : Type} {s : Schema} {id : ElementId} {b : Building τ} {keeper : Option
  (CommentKeeper τ)}

theorem Building.Linked.of_spares {b' : Building τ} (h : b.Linked s)
    (hspares : b.Spares id (fun f => (s.featureAt f).IsReference) b') : b'.Linked s := by
  rw [Building.Linked, hspares.unresolved]
  refine ⟨fun j f hf href => ?_, fun u hu => ?_⟩
  · rw [hspares.model.classOf] at hf
    rw [hspares.model.values j f fun _ => href]
    exact h.targets j f hf href
  · rw [hspares.model.size, hspares.model.classOf]
    exact h.entries u hu

theorem linked_unless_problem (taken : Bool) (fault : Fault) (line : Nat) (h : b.Linked s) :
    ((unless taken do problem fault line) b).2.Linked s := by
  cases taken <;> exact h

theorem linked_bindRest (hs : s.Accepted) {c : ClassId} (line position : Nat)
    (given : List FeatureId) (arguments : List Argument) (h : b.Linked s) (hid : id < b.model.size)
    (hclass : b.model.classOf id = c) :
    (bindRest s id c line position given arguments b).2.Linked s := by
  induction arguments generalizing position given b with
  | nil => exact h
  | cons a rest ih =>
    unfold bindRest
    cases haddress : s.address c position a.label with
    | error fault => exact ih _ _ h hid hclass
    | ok f =>
      simp only
      split
      · exact ih _ _ h hid hclass
      · have hf : f ∈ s.arguments (b.model.classOf id) := hclass ▸ hs.mem_of_address haddress
        rw [bind_apply, adds_bindValues f a.value.tokens (a.lineOr line) b]
        refine ih _ _ (Model.Linked.store hs h hid hf a.value.tokens) ?_ ?_
        · rwa [size_fill]
        · rwa [classOf_fill]

theorem linked_begin (hs : s.Accepted) (c : ClassId) (statement : Statement ElementId)
    (h : b.Linked s) : (begin s c statement b).Linked s := by
  refine linked_bindRest hs _ _ _ _ (Model.Linked.create h c (some statement.command.line)) ?_ rfl
  exact size_create b.model c _ ▸ Nat.lt_succ_self _

theorem linked_furnish (hs : s.Accepted) (origin : Origin)
    (hkeeper : ∀ k ∈ keeper, k.Spares s fun f => (s.featureAt f).IsReference) (c : ClassId)
    (statement : Statement ElementId) (h : b.Linked s) :
    (conclude s origin keeper c statement b).Linked s :=
  (linked_begin hs c statement h).of_spares (spares_furnish (fun _ href => href.isContainment)
    (fun _ href _ => href.dataType?) hkeeper origin c statement b)

theorem linked_leave (hs : s.Accepted) (origin : Origin)
    (hkeeper : ∀ k ∈ keeper, k.Spares s fun f => (s.featureAt f).IsReference)
    (statement : Statement ElementId) (scope : Option ClassId) (h : b.Linked s) :
    ((builder s origin keeper).leave statement scope b).2.Linked s := by
  rcases leave_cases s origin keeper statement scope b with
    ⟨fault, -, heq⟩ | ⟨c, -, -, heq⟩ <;> rw [heq]
  · exact h
  · exact linked_furnish hs origin hkeeper c statement h

theorem linked_comment (origin : Origin) (htame : ∀ k ∈ keeper, k.Tame) (c : Comment)
    (h : b.Linked s) : ((builder s origin keeper).comment c b).2.Linked s := by
  cases keeper with
  | none => exact h
  | some k =>
    have hoffer : (offer (k.comment s none c) b).2.Linked s := by
      show ((k.comment s none c) (b.model, b.keeper)).2.1.Linked s b.unresolved
      rw [(htame k rfl).loose s c b.model b.keeper]
      exact h
    exact linked_unless_problem _ _ _ hoffer

theorem linked_visitAll (hs : s.Accepted) (origin : Origin) (htame : ∀ k ∈ keeper, k.Tame)
    (hkeeper : ∀ k ∈ keeper, k.Spares s fun f => (s.featureAt f).IsReference)
    (enclosing : Option (Option ClassId)) (entries : List Entry) (h : b.Linked s) :
    (Entry.visitAll (builder s origin keeper) enclosing entries b).2.Linked s := by
  refine Visitor.Keeps.visitAll (v := builder s origin keeper)
    (P := fun _ b _ b' => b.Linked s → b'.Linked s) ⟨?_, ?_, ?_, ?_, ?_, ?_⟩ enclosing entries b h
  · exact fun _ _ h => h
  · exact fun h h' hb => h' (h hb)
  · exact fun _ c _ h => linked_comment origin htame c h
  · exact fun _ _ h => h
  · exact fun h => h
  · exact fun _ _ _ h hb => linked_leave hs origin hkeeper _ _ (h hb)

/-- Whatever a text says, proxies and noted references correspond. For each reference of an element
the proxies among its values name the targets that are noted for it, in order. All that is noted
belongs to a reference of the class of an element, and only these hold proxies. -/
theorem linked_instantiateWith (hs : s.Accepted) (origin : Origin) (k : Option AttributeKeeper)
    (text : List Char) :
    let r := instantiateWith s origin (k.map AttributeKeeper.keeper) () {} text
    r.model.Linked s r.unresolved ∧
      ∀ id f target, Value.proxy target ∈ r.model.values id f → id < r.model.size ∧
        f ∈ s.featuresOf (r.model.classOf id) ∧ (s.featureAt f).IsReference := by
  intro r
  have hkeeper : ∀ keeper ∈ k.map AttributeKeeper.keeper,
      keeper.Spares s fun f => (s.featureAt f).IsReference := by
    intro keeper hmem
    obtain ⟨k, -, rfl⟩ := Option.map_eq_some_iff.mp hmem
    refine k.spares fun f href => ?_
    rw [href.dataType?]
    exact nofun
  refine ⟨linked_visitAll hs origin tame_of_mem_map hkeeper none _ (linked_empty s), ?_⟩
  intro id f target hproxy
  obtain ⟨hsound, -⟩ := sound_instantiateWith hs origin tame_of_mem_map () text
  have hholds := hsound.fits id f (List.ne_nil_of_mem hproxy)
  exact ⟨r.model.lt_size_of_mem_values hproxy, hholds.mem,
    Schema.isReference_of_takes (hholds.takes _ hproxy)⟩

/-- A parcel that is given its way twice, and one inside it whose name is no text. -/
def routeText : List Char :=
  "Parcel \"crate\", route: [/a, 5, b], route: /c \x7b\nParcel /d, route: a\n\x7d\n".toList

theorem linked_routeText : ∃ s, parcels.build = .ok s ∧
    (instantiateWith s {} none () {} routeText).model.values 1 2 = [.proxy "/a", .proxy "b"] ∧
    (instantiateWith s {} none () {} routeText).unresolved =
      [⟨0, "route", "a"⟩, ⟨1, "route", "/a"⟩, ⟨1, "route", "b"⟩] ∧
    (instantiateWith s {} none () {} routeText).model.Linked s
      (instantiateWith s {} none () {} routeText).unresolved :=
  ⟨_, rfl, by decide +kernel, by decide +kernel,
    (linked_instantiateWith ⟨parcels, rfl⟩ {} none routeText).1⟩

end CommandText
