import CommandText.Proofs.ModelUpdates

/-!
# Histories of a model

Elements are created and put into each other in any order, and an element that is contained already,
or is to be put into itself, is refused. A containment is recorded twice, with the child and with
its parent. Both records are read off one list, the placements made so far: the container of a child
is its only placement, and the children in a feature are the placements into it, in their order.
-/

namespace CommandText.Model

open List

variable {child parent : ElementId} {f : FeatureId} {ps : List Placement} {m : Model}

/-- What is done to a model. -/
inductive Edit
  | create (type : ClassId) (line : Option Nat)
  | attach (parent : ElementId) (f : FeatureId) (child : ElementId)
deriving DecidableEq, Repr

/-- A child in a feature of its parent. -/
structure Placement where
  parent : ElementId
  feature : FeatureId
  child : ElementId
deriving DecidableEq, Repr

/-- The model behind an edit. A child that is refused leaves it as it is. -/
def after (m : Model) : Edit → Model
  | .create type line => m.create type line
  | .attach parent f child => (m.attach? parent f child).getD m

/-- The model behind a history. -/
def replay (m : Model) : List Edit → Model
  | [] => m
  | e :: es => (m.after e).replay es

/-- The placement that an edit makes. -/
def placed? (m : Model) : Edit → Option Placement
  | .create _ _ => none
  | .attach parent f child =>
    if (m.attach? parent f child).isSome then some ⟨parent, f, child⟩ else none

/-- The placements that a history makes, in their order. -/
def placements (m : Model) : List Edit → List Placement
  | [] => []
  | e :: es => (m.placed? e).toList ++ (m.after e).placements es

/-- The elements that an edit names are there. -/
def Names (m : Model) : Edit → Prop
  | .create _ _ => True
  | .attach parent _ child => parent < m.size ∧ child < m.size

instance (m : Model) : (e : Edit) → Decidable (m.Names e)
  | .create _ _ => isTrue trivial
  | .attach parent _ child => inferInstanceAs (Decidable (parent < m.size ∧ child < m.size))

/-- Each edit of a history names elements that are there by then. -/
def Named (m : Model) : List Edit → Prop
  | [] => True
  | e :: es => m.Names e ∧ (m.after e).Named es

instance decidableNamed : (m : Model) → (es : List Edit) → Decidable (m.Named es)
  | _, [] => isTrue trivial
  | m, e :: es =>
    have := decidableNamed (m.after e) es
    inferInstanceAs (Decidable (m.Names e ∧ (m.after e).Named es))

/-- The children that placements put into a feature. -/
def placedIn (parent : ElementId) (f : FeatureId) (ps : List Placement) : List ElementId :=
  (ps.filter fun p => p.parent = parent ∧ p.feature = f).map (·.child)

/-! ### One edit -/

theorem replay_append (m : Model) (es fs : List Edit) :
    m.replay (es ++ fs) = (m.replay es).replay fs := by
  induction es generalizing m with
  | nil => rfl
  | cons e es ih => exact ih (m.after e)

variable {es : List Edit}

theorem named_append {fs : List Edit} :
    m.Named (es ++ fs) ↔ m.Named es ∧ (m.replay es).Named fs := by
  induction es generalizing m with
  | nil => simp [Named, replay]
  | cons e es ih => rw [cons_append, Named, Named, replay, ih, and_assoc]

theorem after_cases {e : Edit} (h : m.Names e) :
    (∃ type line, e = .create type line ∧ m.placed? e = none ∧ m.after e = m.create type line) ∨
    (∃ parent f child, e = .attach parent f child ∧ m.attach? parent f child = none ∧
      m.placed? e = none ∧ m.after e = m) ∨
    ∃ parent f child, e = .attach parent f child ∧ m.placed? e = some ⟨parent, f, child⟩ ∧
      m.container child = none ∧ parent ≠ child ∧ m.Attached parent f child (m.after e) := by
  cases e with
  | create type line => exact .inl ⟨type, line, rfl, rfl, rfl⟩
  | attach parent f child =>
    rw [placed?, after]
    cases hattach : m.attach? parent f child with
    | none => exact .inr (.inl ⟨parent, f, child, rfl, hattach, rfl, rfl⟩)
    | some m' =>
      obtain ⟨hfree, hne, -⟩ := m.attach?_eq_some_iff.mp hattach
      exact .inr (.inr ⟨parent, f, child, rfl, rfl, hfree, hne,
        m.attached_of_attach? hattach h.1 h.2⟩)

theorem attach?_eq_none_iff :
    m.attach? parent f child = none ↔ m.container child ≠ none ∨ parent = child := by
  rw [← not_iff_not, ← ne_eq, Option.ne_none_iff_exists']
  simp [attach?_eq_some_iff]

/-! ### Placements -/

theorem placedIn_append (parent : ElementId) (f : FeatureId) (ps qs : List Placement) :
    placedIn parent f (ps ++ qs) = placedIn parent f ps ++ placedIn parent f qs := by
  simp [placedIn]

theorem mem_placedIn : child ∈ placedIn parent f ps ↔ ⟨parent, f, child⟩ ∈ ps := by
  simp only [placedIn, mem_map, mem_filter, decide_eq_true_eq]
  constructor
  · rintro ⟨p, ⟨hp, rfl, rfl⟩, rfl⟩
    exact hp
  · exact fun h => ⟨_, ⟨h, rfl, rfl⟩, rfl⟩

/-- A model in which exactly the given placements have been made, each child by one of them. -/
structure Records (m : Model) (ps : List Placement) : Prop where
  container : ∀ c p f, m.container c = some (p, f) ↔ ⟨p, f, c⟩ ∈ ps
  children : ∀ p f, m.children p f = placedIn p f ps
  once : (ps.map (·.child)).Nodup

theorem records_empty : Records {} [] where
  container c p f := by simp [container_eq_none {} (Nat.zero_le c)]
  children p f := by simp [Model.children, values_eq_nil {} (Nat.zero_le p), placedIn]
  once := nodup_nil

theorem children_create (m : Model) (type : ClassId) (line : Option Nat) (p : ElementId)
    (f : FeatureId) : (m.create type line).children p f = m.children p f := by
  rw [children, values_create, children]

theorem Attached.children {m' : Model} (h : m.Attached parent f child m') (p : ElementId)
    (g : FeatureId) : m'.children p g = m.children p g ++ placedIn p g [⟨parent, f, child⟩] := by
  rw [Model.children, Model.children, h.values]
  by_cases hp : p = parent ∧ g = f
  · obtain ⟨rfl, rfl⟩ := hp
    simp [placedIn, Value.element?]
  · have hp' : ¬(parent = p ∧ f = g) := fun h => hp ⟨h.1.symm, h.2.symm⟩
    simp [placedIn, hp, hp']

theorem Records.after {e : Edit} (h : m.Records ps) (he : m.Names e) :
    (m.after e).Records (ps ++ (m.placed? e).toList) := by
  obtain ⟨type, line, -, hplaced, hafter⟩ | ⟨-, -, -, -, -, hplaced, hafter⟩ |
    ⟨parent, f, child, -, hplaced, hfree, -, hattached⟩ := after_cases he
  · rw [hplaced, hafter, Option.toList_none, append_nil]
    exact ⟨fun c p f => by rw [container_create, h.container],
      fun p f => by rw [children_create, h.children], h.once⟩
  · rw [hplaced, hafter, Option.toList_none, append_nil]
    exact h
  · rw [hplaced, Option.toList_some]
    -- a free child has no placement yet
    have hnew (p : ElementId) (g : FeatureId) : ⟨p, g, child⟩ ∉ ps := by
      rw [← h.container, hfree]
      simp
    refine ⟨fun c p g => ?_, fun p g => ?_, ?_⟩
    · rw [hattached.container, mem_append, mem_singleton, Placement.mk.injEq]
      split
      · next hc => subst hc; simp [hnew p g, eq_comm]
      · next hc => simp [h.container, hc]
    · rw [hattached.children, h.children, placedIn_append]
    · rw [map_append, nodup_append]
      refine ⟨h.once, by simp, ?_⟩
      rintro c hc _ hchild rfl
      obtain ⟨⟨p, g, c⟩, hp, rfl⟩ := mem_map.mp hc
      obtain rfl := mem_singleton.mp hchild
      exact hnew p g hp

theorem records_replay (h : m.Records ps) (hes : m.Named es) :
    (m.replay es).Records (ps ++ m.placements es) := by
  induction es generalizing m ps with
  | nil => rwa [replay, placements, append_nil]
  | cons e es ih =>
    rw [replay, placements, ← append_assoc]
    exact ih (h.after hes.1) hes.2

/-! ### What is seen of the placements -/

section Records

theorem Records.container_iff (h : m.Records ps) (c p : ElementId) (f : FeatureId) :
    m.container c = some (p, f) ↔ c ∈ m.children p f := by
  rw [h.container, h.children, mem_placedIn]

theorem Records.nodup_children (h : m.Records ps) (p : ElementId) (f : FeatureId) :
    (m.children p f).Nodup := by
  rw [h.children]
  exact h.once.sublist (filter_sublist.map _)

end Records

theorem replay_refused {fs : List Edit} (h : (m.replay es).attach? parent f child = none) :
    m.replay (es ++ .attach parent f child :: fs) = m.replay (es ++ fs) := by
  rw [replay_append, replay_append, replay, after, h, Option.getD_none]

/-- Behind every history an element has a container exactly if it is among the children there, it is
among the children of one feature of one parent at most and stands there once, the children are in
the order in which they were put there, and a child is refused exactly if it is contained or its own
parent, which changes nothing then or later. -/
theorem container_children_replay {es : List Edit} (h : Named {} es) :
    let m := replay {} es
    (∀ c p f, m.container c = some (p, f) ↔ c ∈ m.children p f) ∧
    (∀ c p f q g, c ∈ m.children p f → c ∈ m.children q g → p = q ∧ f = g) ∧
    (∀ p f, (m.children p f).Nodup) ∧
    (∀ p f, m.children p f = placedIn p f (placements {} es)) ∧
    ∀ p f c, (m.attach? p f c = none ↔ m.container c ≠ none ∨ p = c) ∧
      (m.attach? p f c = none → ∀ fs,
        replay {} (es ++ .attach p f c :: fs) = replay {} (es ++ fs)) := by
  intro m
  have hm : m.Records (placements {} es) := records_replay records_empty h
  refine ⟨hm.container_iff, fun c p f q g hp hq => ?_, hm.nodup_children, hm.children,
    fun p f c => ⟨attach?_eq_none_iff, fun hrefused fs => replay_refused hrefused⟩⟩
  rw [← hm.container_iff] at hp hq
  rw [hp, Option.some.injEq, Prod.mk.injEq] at hq
  exact hq

/-- Two children of one parent, with a child that is its own parent refused between them and a child
that is contained refused behind them. -/
theorem container_children_refusedChildren :
    let es : List Edit := [.create 0 none, .create 0 none, .create 0 none, .attach 0 5 2,
      .attach 1 5 1, .attach 0 5 1, .attach 1 5 2]
    Named {} es ∧ (replay {} es).children 0 5 = [2, 1] ∧
      (replay {} es).container 1 = some (0, 5) ∧ (replay {} es).container 2 = some (0, 5) ∧
      replay {} (es ++ [.attach 2 5 1]) = replay {} es := by
  intro es
  have hes : Named {} es := by decide
  obtain ⟨hcontainer, -, -, hchildren, hrefused⟩ := container_children_replay hes
  have hplaced : (replay {} es).children 0 5 = [2, 1] := by
    rw [hchildren]
    decide
  have hone : (replay {} es).container 1 = some (0, 5) := by simp [hcontainer, hplaced]
  refine ⟨hes, hplaced, hone, by simp [hcontainer, hplaced], ?_⟩
  obtain ⟨hiff, hsame⟩ := hrefused 2 5 1
  exact (hsame (hiff.mpr (.inl (by simp [hone]))) []).trans (by rw [List.append_nil])

end CommandText.Model
