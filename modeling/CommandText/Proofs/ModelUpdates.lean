import CommandText.Model.Basic
import Mathlib.Tactic.Common

/-!
# What changes to a model do

Every change to a model is told through what can be seen of it: the number of elements, their
classes, values and containers. Creating an element changes none of these for the others, filling
the slots of an element changes its values only, and putting one element into another changes one
container and one list of values.
-/

namespace CommandText

open List

variable {id : ElementId}

/-- Adds a value behind those of a slot. -/
def Slots.add (f : FeatureId) (v : Value) (slots : Slots) : Slots :=
  slots.put f (slots.get f ++ [v])

namespace Model

variable (m : Model)
variable {child parent : ElementId} {f : FeatureId} {m' : Model}

/-- Changes the slots of an element. -/
def fill (id : ElementId) (g : Slots → Slots) : Model :=
  m.update id fun e => { e with values := g e.values }

theorem elementAt_update (id : ElementId) (g : Element → Element) (j : ElementId) :
    (m.update id g).elementAt j =
      if j = id ∧ id < m.size then g (m.elementAt id) else m.elementAt j := by
  simp only [elementAt, update, size, getD_eq_getElem?_getD, getElem?_modify]
  by_cases h : id = j
  · subst h
    by_cases hlt : id < m.elements.length
    · simp [hlt]
    · simp [hlt]
  · simp [h, Ne.symm h]

theorem update_congr {g h : Element → Element} (hgh : g (m.elementAt id) = h (m.elementAt id)) :
    m.update id g = m.update id h := by
  refine congrArg Model.mk (ext_getElem? fun j => ?_)
  rw [getElem?_modify, getElem?_modify]
  by_cases hj : id = j
  · subst hj
    cases he : m.elements[id]? with
    | none => rfl
    | some e =>
      have hat : m.elementAt id = e := by rw [elementAt, getD_eq_getElem?_getD, he]; rfl
      simpa [hat] using hgh
  · simp [hj]

@[simp] theorem size_update (id : ElementId) (g : Element → Element) :
    (m.update id g).size = m.size := by
  simp [size, update]

theorem values_update_container (id : ElementId) (c : Option (ElementId × FeatureId))
    (j : ElementId) (f : FeatureId) :
    (m.update id fun e => { e with container := c }).values j f = m.values j f := by
  rw [values, elementAt_update]
  split
  · next h => rw [h.1, values]
  · rfl

theorem elementAt_eq_default (h : m.size ≤ id) : m.elementAt id = default := by
  rw [elementAt, getD_eq_getElem?_getD, getElem?_eq_none h, Option.getD_none]

theorem values_eq_nil (h : m.size ≤ id) (f : FeatureId) : m.values id f = [] := by
  rw [values, m.elementAt_eq_default h]
  rfl

theorem container_eq_none (h : m.size ≤ id) : m.container id = none := by
  rw [container, m.elementAt_eq_default h]
  rfl

theorem lt_size_of_mem_values {v : Value} (h : v ∈ m.values id f) : id < m.size := by
  by_contra hle
  rw [m.values_eq_nil (Nat.le_of_not_lt hle)] at h
  cases h

theorem lt_size_of_container {c : ElementId × FeatureId} (h : m.container id = some c) :
    id < m.size := by
  by_contra hle
  rw [m.container_eq_none (Nat.le_of_not_lt hle)] at h
  cases h

/-! ### Creating -/

section Create

variable (type : ClassId) (line : Option Nat)

@[simp] theorem size_create : (m.create type line).size = m.size + 1 := by
  simp [size, create]

theorem elementAt_create (j : ElementId) :
    (m.create type line).elementAt j =
      if j = m.size then { type := type, line := line } else m.elementAt j := by
  simp only [elementAt, create, size, getD_eq_getElem?_getD]
  split
  · next h => simp [h]
  · next h =>
    rcases Nat.lt_or_gt_of_ne h with h | h
    · rw [getElem?_append_left h]
    · rw [getElem?_eq_none (by simp; omega), getElem?_eq_none (by omega)]

@[simp] theorem values_create (j : ElementId) (f : FeatureId) :
    (m.create type line).values j f = m.values j f := by
  rw [values, elementAt_create]
  split
  · next h =>
    rw [m.values_eq_nil (Nat.le_of_eq h.symm)]
    rfl
  · rfl

@[simp] theorem container_create (j : ElementId) :
    (m.create type line).container j = m.container j := by
  rw [container, elementAt_create]
  split
  · next h => rw [m.container_eq_none (Nat.le_of_eq h.symm)]
  · rfl

theorem classOf_create (j : ElementId) :
    (m.create type line).classOf j = if j = m.size then type else m.classOf j := by
  rw [classOf, elementAt_create]
  split <;> rfl

end Create

/-! ### Filling slots -/

section Fill

variable (id : ElementId) (g : Slots → Slots)

@[simp] theorem size_fill : (m.fill id g).size = m.size := size_update m id _

@[simp] theorem classOf_fill (j : ElementId) : (m.fill id g).classOf j = m.classOf j := by
  rw [classOf, fill, elementAt_update]
  split
  · next h => rw [h.1, classOf]
  · rfl

@[simp] theorem container_fill (j : ElementId) : (m.fill id g).container j = m.container j := by
  rw [container, fill, elementAt_update]
  split
  · next h => rw [h.1, container]
  · rfl

theorem values_fill (j : ElementId) (f : FeatureId) :
    (m.fill id g).values j f =
      if j = id ∧ id < m.size then (g (m.elementAt id).values).get f else m.values j f := by
  rw [values, fill, elementAt_update]
  split <;> rfl

theorem elementAt_fill_of_ne {j : ElementId} (h : j ≠ id) :
    (m.fill id g).elementAt j = m.elementAt j := by
  rw [fill, elementAt_update, if_neg (fun hj => h hj.1)]

@[simp] theorem lineOf_fill (j : ElementId) :
    ((m.fill id g).elementAt j).line = (m.elementAt j).line := by
  rw [fill, elementAt_update]
  split
  · next h => rw [h.1]
  · rfl

theorem fill_fill (h : Slots → Slots) : (m.fill id g).fill id h = m.fill id (h ∘ g) := by
  simp only [fill, update, modify_modify_eq]
  rfl

theorem fill_id : m.fill id (fun slots => slots) = m := by
  simp only [fill, update]
  exact congrArg Model.mk (modify_id _ _)

theorem setValue_eq_fill (f : FeatureId) (v : Value) :
    m.setValue id f v = m.fill id (Slots.put f [v]) := rfl

theorem addValue_eq_fill (f : FeatureId) (v : Value) :
    m.addValue id f v = m.fill id (Slots.add f v) := by
  rw [addValue, putValues, fill]
  exact m.update_congr rfl

end Fill

/-! ### Attaching -/

/-- What is seen of a model in which a child has been put into a feature. -/
structure Attached (parent : ElementId) (f : FeatureId) (child : ElementId)
    (m' : Model) : Prop where
  size : m'.size = m.size
  classOf : ∀ j, m'.classOf j = m.classOf j
  lineOf : ∀ j, (m'.elementAt j).line = (m.elementAt j).line
  others : ∀ j, j ≠ parent → j ≠ child → m'.elementAt j = m.elementAt j
  container : ∀ j, m'.container j = if j = child then some (parent, f) else m.container j
  values : ∀ j g, m'.values j g =
    if j = parent ∧ g = f then m.values parent f ++ [.element child] else m.values j g

theorem attach?_eq_some_iff :
    m.attach? parent f child = some m' ↔ m.container child = none ∧ parent ≠ child ∧
      (m.update child fun e => { e with container := some (parent, f) }).addValue parent f
        (.element child) = m' := by
  rw [attach?]
  split
  · next h =>
    rw [isFree, Bool.and_eq_true, Option.isNone_iff_eq_none, bne_iff_ne] at h
    simp [h]
  · next h =>
    rw [isFree, Bool.and_eq_true, Option.isNone_iff_eq_none, bne_iff_ne] at h
    simp only [false_iff, reduceCtorEq]
    exact fun h' => h ⟨h'.1, h'.2.1⟩

theorem classOf_of_attach? (h : m.attach? parent f child = some m') (j : ElementId) :
    m'.classOf j = m.classOf j := by
  obtain ⟨-, -, rfl⟩ := (m.attach?_eq_some_iff).mp h
  rw [addValue_eq_fill, classOf_fill, Model.classOf, elementAt_update]
  split
  · next h => rw [h.1, Model.classOf]
  · rfl

theorem attached_of_attach? (h : m.attach? parent f child = some m') (hparent : parent < m.size)
    (hchild : child < m.size) : m.Attached parent f child m' := by
  have hclass := m.classOf_of_attach? h
  obtain ⟨-, -, rfl⟩ := (m.attach?_eq_some_iff).mp h
  rw [addValue_eq_fill] at hclass ⊢
  refine ⟨?_, hclass, fun j => ?_, fun j hp hc => ?_, fun j => ?_, fun j g => ?_⟩
  · simp
  · rw [lineOf_fill, elementAt_update]
    split
    · next h => rw [h.1]
    · rfl
  · rw [elementAt_fill_of_ne _ _ _ hp, elementAt_update, if_neg (fun h => hc h.1)]
  · rw [container_fill, Model.container, elementAt_update]
    by_cases hj : j = child
    · rw [if_pos ⟨hj, hchild⟩, if_pos hj]
    · rw [if_neg (fun h => hj h.1), if_neg hj, Model.container]
  · have hvalues := m.values_update_container child (some (parent, f))
    rw [values_fill, size_update, hvalues]
    by_cases hj : j = parent
    · subst hj
      rw [if_pos ⟨rfl, hparent⟩, Slots.add]
      by_cases hg : g = f
      · subst hg
        rw [Slots.get_put_self, if_pos ⟨rfl, rfl⟩]
        exact congrArg (· ++ _) (hvalues j g)
      · rw [Slots.get_put_of_ne hg, if_neg (fun h => hg h.2)]
        exact hvalues j g
    · rw [if_neg (fun h => hj h.1), if_neg (fun h => hj h.1)]

end Model

end CommandText
