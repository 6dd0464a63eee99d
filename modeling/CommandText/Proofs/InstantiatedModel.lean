import CommandText.Proofs.SoundRuns

/-!
# The model of a text

What can be relied on in the model that any text is turned into, however many problems it has: its
elements form a forest by containment, and every value is one that its feature may hold.
-/

namespace CommandText

/-- The elements of a model form a forest by containment. -/
structure Model.IsForest (s : Schema) (m : Model) : Prop where
  concrete : ∀ id < m.size, (s.classAt (m.classOf id)).isAbstract = false
  container_iff : ∀ c p f, m.container c = some (p, f) ↔ Value.element c ∈ m.values p f
  once : ∀ c p f, m.container c = some (p, f) → (m.values p f).count (.element c) = 1
  nowhereElse : ∀ c p f q g, m.container c = some (p, f) → Value.element c ∈ m.values q g →
    q = p ∧ g = f
  feature : ∀ c p f, m.container c = some (p, f) → f ∈ s.containments (m.classOf p)
  conforms : ∀ c p f, m.container c = some (p, f) →
    ∃ target, (s.featureAt f).kind = .containment target ∧ s.conforms (m.classOf c) target = true
  single : ∀ p f, (s.featureAt f).isContainment = true → (s.featureAt f).many = false →
    (m.values p f).length ≤ 1
  child_lt : ∀ c p f, m.container c = some (p, f) → c < p

theorem Model.Sound.isForest {s : Schema} {m : Model} (h : m.Sound s) : m.IsForest s where
  concrete := h.concrete
  container_iff := h.container_iff
  once c p f hc :=
    Nat.le_antisymm (h.once c p f) (List.count_pos_iff.mpr ((h.container_iff c p f).mp hc))
  nowhereElse c p f q g hc hmem := by
    obtain ⟨rfl, rfl⟩ : (q, g) = (p, f) :=
      Option.some.inj (((h.container_iff c q g).mpr hmem).symm.trans hc)
    exact ⟨rfl, rfl⟩
  feature c p f hc := by
    have hmem := (h.container_iff c p f).mp hc
    have hholds := h.fits p f (List.ne_nil_of_mem hmem)
    exact s.mem_containments_iff.mpr
      ⟨hholds.mem, Schema.exists_containment_of_takes (hholds.takes _ hmem)⟩
  conforms c p f hc := by
    have hmem := (h.container_iff c p f).mp hc
    obtain ⟨target, hkind⟩ := Schema.exists_containment_of_takes
      ((h.fits p f (List.ne_nil_of_mem hmem)).takes _ hmem)
    have htarget := h.conforms c p f hc
    rw [Feature.target?, hkind] at htarget
    exact ⟨target, hkind, htarget⟩
  single p f _ hsingle := by
    by_cases hnil : m.values p f = []
    · simp [hnil]
    · exact (h.fits p f hnil).single hsingle
  child_lt := h.child_lt

theorem tame_of_mem_map {k : Option AttributeKeeper} :
    ∀ keeper ∈ k.map AttributeKeeper.keeper, keeper.Tame := by
  intro keeper hkeeper
  obtain ⟨k, -, rfl⟩ := Option.map_eq_some_iff.mp hkeeper
  exact k.tame

/-- Boxes that have a name and may contain further boxes. -/
def boxes : SchemaDefinition where
  classes := [{ name := "Box", unlabeled := some ["name"], features := [
    { name := "name", sort := .string },
    { name := "boxes", sort := .containment, target := some "Box", many := true }] }]

/-- A box in a box, and one behind them whose block is not closed. -/
def boxText : List Char := "Box outer \x7b\n  Box inner\n\x7d\nBox open \x7b\n".toList

/-- Whatever a text says, its elements form a forest, the roots stand in nothing, and the elements
are listed in the order of their numbers. -/
theorem isForest_instantiateWith {s : Schema} (hs : s.Accepted) (origin : Origin)
    (k : Option AttributeKeeper) (text : List Char) :
    let r := instantiateWith s origin (k.map AttributeKeeper.keeper) () {} text
    r.model.IsForest s ∧ (∀ root ∈ r.roots, root < r.model.size ∧ r.model.container root = none) ∧
      r.elements = List.range r.model.size := by
  obtain ⟨hmodel, helements, hroots⟩ := sound_instantiateWith hs origin tame_of_mem_map () text
  exact ⟨hmodel.isForest, hroots, helements⟩

theorem isForest_boxes : ∃ s, boxes.build = .ok s ∧
    (instantiateWith s {} none () {} boxText).model.container 0 = some (1, 1) ∧
    (instantiateWith s {} none () {} boxText).roots = [1, 2] ∧
    (instantiateWith s {} none () {} boxText).model.IsForest s :=
  ⟨_, rfl, by decide +kernel, by decide +kernel,
    (isForest_instantiateWith ⟨boxes, rfl⟩ {} none boxText).1⟩

/-- Whatever a text says, features hold values only if the class of the element has them, one at
most unless they hold many, and each of a kind that they take. -/
theorem holds_instantiateWith {s : Schema} (hs : s.Accepted) (origin : Origin)
    (k : Option AttributeKeeper) (text : List Char) (id : ElementId) (f : FeatureId) :
    let m := (instantiateWith s origin (k.map AttributeKeeper.keeper) () {} text).model
    m.values id f ≠ [] → s.Holds (m.classOf id) f (m.values id f) := by
  obtain ⟨hmodel, -⟩ := sound_instantiateWith hs origin tame_of_mem_map () text
  exact hmodel.fits id f

theorem holds_boxes : ∃ s, boxes.build = .ok s ∧
    (instantiateWith s {} none () {} boxText).model.values 1 0 = [.string "outer"] ∧
    s.Holds ((instantiateWith s {} none () {} boxText).model.classOf 1) 0
      ((instantiateWith s {} none () {} boxText).model.values 1 0) :=
  ⟨_, rfl, by decide +kernel,
    holds_instantiateWith ⟨boxes, rfl⟩ {} none boxText 1 0 (by decide +kernel)⟩

end CommandText
