import CommandText.Proofs.ContainmentHistory
import Mathlib.Logic.Relation
import Mathlib.Tactic.TFAE

/-!
# Elements inside themselves

A child is refused if it is contained already or is to be put into itself. Nothing else is looked
at, so an element without a container can be put into one of those that it holds, and is inside
itself from then on. This is the only way: a placement is never undone, so a loop stays once it is
closed, and a history that never puts an element into something inside it leaves every element under
an outermost one.
-/

namespace CommandText.Model

open Relation

variable {e : Edit} {c p : ElementId}

/-- An element and its parent. -/
def Under (m : Model) (c p : ElementId) : Prop := m.parent c = some p

instance (m : Model) (c p : ElementId) : Decidable (m.Under c p) :=
  inferInstanceAs (Decidable (m.parent c = some p))

/-- An element and an ancestor of it. -/
def Inside (m : Model) : ElementId → ElementId → Prop := TransGen m.Under

/-- The parents from any element up end at an element without a container. -/
def Grounded (m : Model) : Prop :=
  ∀ id, ∃ top, ReflTransGen m.Under id top ∧ m.container top = none

/-- An edit that puts an element into one that is inside it. -/
def ClosesLoop (m : Model) : Edit → Prop
  | .create _ _ => False
  | .attach parent f child => (m.attach? parent f child).isSome = true ∧ m.Inside parent child

variable {m m' : Model}

theorem under_iff : m.Under c p ↔ ∃ f, m.container c = some (p, f) := by
  simp [Under, parent]

/-! ### Loops within one model -/

theorem Inside.container_ne_none (h : m.Inside c p) : m.container c ≠ none := by
  obtain ⟨q, hq, -⟩ := TransGen.head'_iff.mp h
  obtain ⟨f, hf⟩ := under_iff.mp hq
  simp [hf]

theorem Inside.of_under (h : m.Inside c c) (hp : m.Under c p) : m.Inside p p := by
  obtain ⟨q, hq, hback⟩ := TransGen.head'_iff.mp h
  obtain rfl : p = q := Option.some.inj (hp.symm.trans hq)
  exact TransGen.tail' hback hp

theorem Grounded.not_inside_self (h : m.Grounded) (id : ElementId) : ¬m.Inside id id := by
  intro hloop
  obtain ⟨top, hpath, htop⟩ := h id
  -- the loop goes up with the path, and no loop passes through an outermost element
  have hup (q : ElementId) (hq : ReflTransGen m.Under id q) : m.Inside q q := by
    induction hq with
    | refl => exact hloop
    | tail _ hp ih => exact ih.of_under hp
  exact (hup top hpath).container_ne_none htop

theorem grounded_empty : Grounded {} :=
  fun id => ⟨id, .refl, container_eq_none {} (Nat.zero_le id)⟩

/-! ### One edit -/

theorem container_after (he : m.Names e) {slot : ElementId × FeatureId}
    (h : m.container c = some slot) : (m.after e).container c = some slot := by
  obtain ⟨type, line, -, -, hafter⟩ | ⟨-, -, -, -, -, -, hafter⟩ |
    ⟨parent, f, child, -, -, hfree, -, hattached⟩ := after_cases he
  · rw [hafter, container_create, h]
  · rw [hafter, h]
  · have hne : c ≠ child := by
      rintro rfl
      simp [hfree] at h
    rw [hattached.container, if_neg hne, h]

theorem Under.after (he : m.Names e) (h : m.Under c p) : (m.after e).Under c p := by
  obtain ⟨f, hf⟩ := under_iff.mp h
  exact under_iff.mpr ⟨f, container_after he hf⟩

theorem Inside.after (he : m.Names e) (h : m.Inside c p) : (m.after e).Inside c p :=
  TransGen.mono (fun _ _ => Under.after he) _ _ h

theorem Grounded.after (h : m.Grounded) (he : m.Names e) (hopen : ¬m.ClosesLoop e) :
    (m.after e).Grounded := by
  intro id
  obtain ⟨top, hpath, htop⟩ := h id
  have hup {c p : ElementId} (h : ReflTransGen m.Under c p) : ReflTransGen (m.after e).Under c p :=
    ReflTransGen.mono (fun _ _ => Under.after he) _ _ h
  obtain ⟨type, line, -, -, hafter⟩ | ⟨-, -, -, -, -, -, hafter⟩ |
    ⟨parent, f, child, rfl, hplaced, hfree, hne, hattached⟩ := after_cases he
  · exact ⟨top, hup hpath, by rw [hafter, container_create, htop]⟩
  · exact ⟨top, hup hpath, by rw [hafter, htop]⟩
  · by_cases hchild : top = child
    · subst hchild
      obtain ⟨outer, houtward, houter⟩ := h parent
      have hne' : outer ≠ top := by
        rintro rfl
        rcases reflTransGen_iff_eq_or_transGen.mp houtward with heq | hinside
        · exact hne heq.symm
        · refine hopen ⟨?_, hinside⟩
          rw [placed?] at hplaced
          split at hplaced
          · next hsome => exact hsome
          · cases hplaced
      have hstep : (m.after (.attach parent f top)).Under top parent :=
        under_iff.mpr ⟨f, by rw [hattached.container, if_pos rfl]⟩
      refine ⟨outer, ((hup hpath).tail hstep).trans (hup houtward), ?_⟩
      rw [hattached.container, if_neg hne', houter]
    · exact ⟨top, hup hpath, by rw [hattached.container, if_neg hchild, htop]⟩

/-! ### Histories -/

theorem inside_replay {es : List Edit} (hes : m.Named es) {c p : ElementId} (h : m.Inside c p) :
    (m.replay es).Inside c p := by
  induction es generalizing m with
  | nil => exact h
  | cons e es ih => exact ih hes.2 (h.after hes.1)

theorem grounded_replay {es : List Edit} (h : m.Grounded) (hes : m.Named es)
    (hopen : ∀ es₁ e es₂, es = es₁ ++ e :: es₂ → ¬(m.replay es₁).ClosesLoop e) :
    (m.replay es).Grounded := by
  induction es generalizing m with
  | nil => exact h
  | cons e es ih =>
    refine ih (h.after hes.1 (hopen [] e es rfl)) hes.2 fun es₁ e₁ es₂ heq => ?_
    exact hopen (e :: es₁) e₁ es₂ (congrArg (e :: ·) heq)

theorem ClosesLoop.inside_self (he : m.Names e) (h : m.ClosesLoop e) :
    ∃ id, (m.after e).Inside id id := by
  obtain ⟨type, line, rfl, -, -⟩ | ⟨parent, f, child, rfl, hrefused, -, -⟩ |
    ⟨parent, f, child, rfl, -, -, -, hattached⟩ := after_cases he
  · exact h.elim
  · simp [ClosesLoop, hrefused] at h
  · have hstep : (m.after (.attach parent f child)).Under child parent :=
      under_iff.mpr ⟨f, by rw [hattached.container, if_pos rfl]⟩
    exact ⟨child, .head hstep (h.2.after he)⟩

/-- A history leaves no element inside itself exactly if the parents from every element up end at
one without a container, and exactly if it never put an element into one that was inside it by
then. -/
theorem tfae_no_loop {es : List Edit} (h : Named {} es) :
    List.TFAE [
      ∀ id, ¬(replay {} es).Inside id id,
      ∀ id, ∃ top, ReflTransGen (replay {} es).Under id top ∧ (replay {} es).container top = none,
      ∀ es₁ e es₂, es = es₁ ++ e :: es₂ → ¬(replay {} es₁).ClosesLoop e] := by
  tfae_have 3 → 2 := grounded_replay grounded_empty h
  tfae_have 2 → 1 := Grounded.not_inside_self
  tfae_have 1 → 3 := by
    rintro hno es₁ e es₂ rfl hcloses
    obtain ⟨-, he, hes₂⟩ := named_append.mp h
    obtain ⟨id, hloop⟩ := hcloses.inside_self he
    rw [replay_append] at hno
    exact hno id (inside_replay hes₂ hloop)
  tfae_finish

/-- A chain of three elements, built from its inner end, with one of them refused as its own
parent. -/
theorem tfae_no_loop_chain :
    let es : List Edit := [.create 0 none, .create 0 none, .create 0 none, .attach 1 5 2,
      .attach 2 5 2, .attach 0 5 1]
    Named {} es ∧ (∀ id, ¬(replay {} es).Inside id id) ∧
      ∀ es₁ e es₂, es = es₁ ++ e :: es₂ → ¬(replay {} es₁).ClosesLoop e := by
  intro es
  have hes : Named {} es := by decide
  have hgrounded : ∀ id, ∃ top, ReflTransGen (replay {} es).Under id top ∧
      (replay {} es).container top = none := by
    intro id
    obtain _ | _ | _ | n := id
    · exact ⟨0, .refl, by decide⟩
    · exact ⟨0, .single (by decide), by decide⟩
    · exact ⟨0, .head (b := 1) (by decide) (.single (by decide)), by decide⟩
    · exact ⟨n + 3, .refl, container_eq_none _ (Nat.le_add_left 3 n)⟩
  have htfae := tfae_no_loop hes
  exact ⟨hes, (htfae.out 1 0).mp hgrounded, (htfae.out 1 2).mp hgrounded⟩

/-- An element that holds another one is put into it. Neither is refused. -/
theorem inside_self_swapped :
    let es : List Edit := [.create 0 none, .create 0 none, .attach 0 5 1, .attach 1 5 0]
    Named {} es ∧ (replay {} es).Inside 0 0 := by
  refine ⟨by decide, ?_⟩
  exact .head (b := 1) (by decide) (.single (by decide))

end CommandText.Model
