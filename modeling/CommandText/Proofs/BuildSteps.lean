import CommandText.Binding.Instantiate
import Mathlib.Tactic.Common

/-!
# What building leaves alone

Apart from the creation of elements, whatever is done for a statement leaves the lists of elements
and roots alone, and problems are only added behind those told before.
-/

namespace CommandText

namespace BuildM

variable {τ α β : Type}

theorem bind_apply (x : BuildM τ α) (f : α → BuildM τ β) (b : Building τ) :
    (x >>= f) b = f (x b).1 (x b).2 := rfl

theorem getModel_bind_apply (f : Model → BuildM τ α) (b : Building τ) :
    (getModel >>= f) b = f b.model b := rfl

/-- Creates nothing and takes no problem back. Instances are found along the text of what is
done. -/
class Modest (x : BuildM τ α) : Prop where
  roots : ∀ b, (x b).2.roots = b.roots
  elements : ∀ b, (x b).2.elements = b.elements
  problems : ∀ b, b.problems <+: (x b).2.problems

instance Modest.pure (a : α) : Modest (pure a : BuildM τ α) :=
  ⟨fun _ => rfl, fun _ => rfl, fun _ => List.prefix_refl _⟩

instance Modest.bind {x : BuildM τ α} {f : α → BuildM τ β} [hx : Modest x]
    [hf : ∀ a, Modest (f a)] : Modest (x >>= f) where
  roots b := ((hf _).roots _).trans (hx.roots b)
  elements b := ((hf _).elements _).trans (hx.elements b)
  problems b := (hx.problems b).trans ((hf _).problems _)

instance Modest.ite {c : Prop} [Decidable c] {x y : BuildM τ α} [hx : Modest x] [hy : Modest y] :
    Modest (if c then x else y) := by
  split
  · exact hx
  · exact hy

instance Modest.problem (fault : Fault) (line : Nat) :
    Modest (problem fault line : BuildM τ Unit) :=
  ⟨fun _ => rfl, fun _ => rfl, fun _ => List.prefix_append _ _⟩

instance Modest.change (f : Model → Model) : Modest (change f : BuildM τ Unit) :=
  ⟨fun _ => rfl, fun _ => rfl, fun _ => List.prefix_refl _⟩

instance Modest.getModel : Modest (getModel : BuildM τ Model) :=
  ⟨fun _ => rfl, fun _ => rfl, fun _ => List.prefix_refl _⟩

instance Modest.offer (ask : StateM (Model × τ) Bool) : Modest (offer ask) :=
  ⟨fun _ => rfl, fun _ => rfl, fun _ => List.prefix_refl _⟩

instance Modest.unresolved (f : Building τ → List Unresolved) :
    Modest (modify fun b => { b with unresolved := f b } : BuildM τ Unit) :=
  ⟨fun _ => rfl, fun _ => rfl, fun _ => List.prefix_refl _⟩

instance Modest.forM {as : List α} {f : α → BuildM τ Unit} [hf : ∀ a, Modest (f a)] :
    Modest (as.forM f) := by
  induction as with
  | nil => exact .pure ()
  | cons a as ih => exact @Modest.bind _ _ _ _ _ (hf a) fun _ => ih

/-! ### Relations between states -/

section Relates

variable {R : Building τ → Building τ → Prop} (hrefl : ∀ b, R b b)
  (htrans : ∀ {b b' b''}, R b b' → R b' b'' → R b b'')

include hrefl htrans

theorem relates_forM {f : α → BuildM τ Unit} {P : α → Building τ → Prop}
    (hkeep : ∀ a b b', R b b' → P a b → P a b') (hstep : ∀ a b, P a b → R b (f a b).2)
    {as : List α} {b : Building τ} (h : ∀ a ∈ as, P a b) : R b (as.forM f b).2 := by
  induction as generalizing b with
  | nil => exact hrefl b
  | cons a as ih =>
    obtain ⟨ha, has⟩ := List.forall_mem_cons.mp h
    have hfirst := hstep a b ha
    exact htrans hfirst (ih fun a ha => hkeep a b _ hfirst (has a ha))

theorem relates_offerComments {s : Schema} {id : ElementId} {keeper : Option (CommentKeeper τ)}
    {comments : List Comment} {note : Option String} {line : Nat}
    (hcomment : ∀ k ∈ keeper, ∀ c ∈ comments, ∀ b,
      R b ((do unless ← offer (k.comment s (some id) c) do problem .commentRefused c.line) b).2)
    (hnote : ∀ k ∈ keeper, ∀ text b,
      R b ((do unless ← offer (k.note s id text) do problem .noteRefused line) b).2)
    (hrefused : ∀ b, R b (problem .noteRefused line b).2) (b : Building τ) :
    R b (offerComments s keeper id comments note line b).2 := by
  induction comments generalizing b with
  | nil =>
    cases note with
    | none => exact hrefl b
    | some text =>
      cases keeper with
      | none => exact hrefused b
      | some k => exact hnote k rfl text b
  | cons c comments ih =>
    refine htrans ?_ (ih (fun k hk c hc => hcomment k hk c (.tail _ hc)) _)
    cases keeper with
    | none => exact hrefl b
    | some k => exact hcomment k rfl c (.head _) b

end Relates

theorem offer_spec (ask : StateM (Model × τ) Bool) (fault : Fault) (line : Nat) (b : Building τ) :
    ((do unless ← offer ask do problem fault line : BuildM τ Unit) b).2.model =
        (ask (b.model, b.keeper)).2.1 ∧
      ((do unless ← offer ask do problem fault line : BuildM τ Unit) b).2.unresolved =
        b.unresolved := by
  rw [bind_apply]
  cases (offer ask b).1 <;> exact ⟨rfl, rfl⟩

variable (s : Schema) (id : ElementId)

instance Modest.bindValue (f : FeatureId) (t : Token) :
    Modest (bindValue s id f t : BuildM τ Unit) := by
  unfold BuildM.bindValue
  split
  · infer_instance
  · refine @Modest.bind _ _ _ _ _ (.change _) fun _ => ?_
    split <;> infer_instance

instance Modest.bindValues (f : FeatureId) (tokens : List Token) (line : Nat) :
    Modest (bindValues s id f tokens line : BuildM τ Unit) := by
  unfold BuildM.bindValues
  infer_instance

instance Modest.bindRest (c : ClassId) (line position : Nat) (given : List FeatureId)
    (arguments : List Argument) :
    Modest (bindRest s id c line position given arguments : BuildM τ Unit) := by
  induction arguments generalizing position given with
  | nil => exact .pure ()
  | cons a rest ih =>
    unfold BuildM.bindRest
    simp only
    split <;> infer_instance

instance Modest.bindArguments (arguments : List Argument) (line : Nat) :
    Modest (bindArguments s id arguments line : BuildM τ Unit) := by
  unfold BuildM.bindArguments
  infer_instance

instance Modest.attachInRole (f : FeatureId) (child : ElementId) :
    Modest (attachInRole s id f child : BuildM τ Unit) := by
  refine @Modest.bind _ _ _ _ _ .getModel fun m => ?_
  simp only
  split
  · infer_instance
  · have : ∀ m' : Option Model, Modest (match m' with
        | some changed => BuildM.change fun _ => changed
        | none => BuildM.problem .containedElsewhere (childLine m child) : BuildM τ Unit) := by
      rintro (_ | m') <;> infer_instance
    infer_instance

instance Modest.attachUnlabeled (child : ElementId) :
    Modest (attachUnlabeled s id child : BuildM τ Unit) := by
  refine @Modest.bind _ _ _ _ _ .getModel fun m => ?_
  simp only
  split <;> infer_instance

instance Modest.placeMember (member : Member ElementId) :
    Modest (placeMember s id member : BuildM τ Unit) := by
  cases member with
  | child child => exact .attachUnlabeled s id child
  | role label children list =>
    refine @Modest.bind _ _ _ _ _ .getModel fun m => ?_
    split <;> infer_instance

instance Modest.placeChildren (members : List (Member ElementId)) :
    Modest (placeChildren s id members : BuildM τ Unit) := by
  unfold BuildM.placeChildren
  infer_instance

instance Modest.setLocationPart (name : Option String) (value : Option Value) :
    Modest (setLocationPart s id name value : BuildM τ Unit) := by
  refine @Modest.bind _ _ _ _ _ .getModel fun m => ?_
  split
  · split <;> infer_instance
  · infer_instance

instance Modest.setLocation (origin : Origin) (line : Nat) :
    Modest (setLocation s origin id line : BuildM τ Unit) := by
  unfold BuildM.setLocation
  infer_instance

instance Modest.offerComments (keeper : Option (CommentKeeper τ)) (comments : List Comment)
    (note : Option String) (line : Nat) :
    Modest (offerComments s keeper id comments note line) := by
  unfold BuildM.offerComments
  cases keeper <;> cases note <;> dsimp only <;> infer_instance

end BuildM

end CommandText
