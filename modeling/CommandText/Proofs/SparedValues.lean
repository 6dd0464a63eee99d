import CommandText.Proofs.NewElements

/-!
# What later steps leave alone

Once its arguments are bound, an element is given its children, its location and its comments. Each
of these steps writes to features of one sort only: children go into containments, the location into
the attributes that the schema reserves for it, and comments into attributes that hold text. The
values of all other features stay as they are, and so does the list of references.
-/

namespace CommandText

variable {P : FeatureId → Prop} {id : ElementId}

namespace Model

variable {m m₁ m₂ m₃ : Model}

/-- Work on an element that leaves alone some of its features, and all other elements. -/
structure Spares (id : ElementId) (P : FeatureId → Prop) (m m' : Model) : Prop where
  size : m'.size = m.size
  classOf : ∀ j, m'.classOf j = m.classOf j
  values : ∀ j f, (j = id → P f) → m'.values j f = m.values j f

theorem Spares.refl (m : Model) : Spares id P m m := ⟨rfl, fun _ => rfl, fun _ _ _ => rfl⟩

theorem Spares.trans (h : Spares id P m₁ m₂) (h' : Spares id P m₂ m₃) : Spares id P m₁ m₃ where
  size := h'.size.trans h.size
  classOf j := (h'.classOf j).trans (h.classOf j)
  values j f hf := (h'.values j f hf).trans (h.values j f hf)

theorem Spares.fill {g : Slots → Slots} (hg : ∀ slots f, P f → (g slots).get f = slots.get f) :
    Spares id P m (m.fill id g) := by
  refine ⟨m.size_fill id g, m.classOf_fill id g, fun j f hf => ?_⟩
  rw [values_fill]
  split
  · next h =>
    obtain ⟨rfl, -⟩ := h
    rw [hg _ f (hf rfl), Model.values]
  · rfl

theorem Spares.setValue {f : FeatureId} (hf : ¬P f) (v : Value) :
    Spares id P m (m.setValue id f v) := by
  rw [setValue_eq_fill]
  refine .fill fun slots g hg => Slots.get_put_of_ne ?_ _ _
  rintro rfl
  exact hf hg

theorem Spares.attach {f : FeatureId} {child : ElementId} {m' : Model} (hf : ¬P f)
    (h : m.attach? id f child = some m') : Spares id P m m' := by
  have hclass := m.classOf_of_attach? h
  obtain ⟨-, -, rfl⟩ := m.attach?_eq_some_iff.mp h
  have hadd : Spares id P (m.update child fun e => { e with container := some (id, f) })
      ((m.update child fun e => { e with container := some (id, f) }).addValue id f
        (.element child)) := by
    rw [addValue_eq_fill]
    refine .fill fun slots g hg => Slots.get_put_of_ne ?_ _ _
    rintro rfl
    exact hf hg
  refine ⟨hadd.size.trans (m.size_update child _), hclass, fun j g hg => ?_⟩
  rw [hadd.values j g hg, values_update_container]

end Model

open Model BuildM

variable {τ : Type} {s : Schema}

/-- Work on an element that leaves alone some of its features, and the references. -/
structure Building.Spares (id : ElementId) (P : FeatureId → Prop) (b b' : Building τ) : Prop where
  model : b.model.Spares id P b'.model
  unresolved : b'.unresolved = b.unresolved

namespace Building.Spares

theorem refl (b : Building τ) : b.Spares id P b := ⟨.refl _, rfl⟩

theorem trans {b₁ b₂ b₃ : Building τ} (h : b₁.Spares id P b₂) (h' : b₂.Spares id P b₃) :
    b₁.Spares id P b₃ :=
  ⟨h.model.trans h'.model, h'.unresolved.trans h.unresolved⟩

theorem problem (fault : Fault) (line : Nat) (b : Building τ) :
    b.Spares id P (BuildM.problem fault line b).2 := ⟨.refl _, rfl⟩

theorem offer {ask : StateM (Model × τ) Bool} (h : ∀ m t, Model.Spares id P m (ask (m, t)).2.1)
    (fault : Fault) (line : Nat) (b : Building τ) :
    b.Spares id P ((do unless ← BuildM.offer ask do BuildM.problem fault line) b).2 := by
  obtain ⟨hmodel, hunresolved⟩ := offer_spec ask fault line b
  exact ⟨hmodel ▸ h b.model b.keeper, hunresolved⟩

theorem forM {α : Type} {f : α → BuildM τ Unit}
    (h : ∀ a (b : Building τ), b.Spares id P (f a b).2) (as : List α) (b : Building τ) :
    b.Spares id P (as.forM f b).2 :=
  relates_forM refl trans (P := fun _ _ => True) (fun _ _ _ _ h => h) (fun a b _ => h a b)
    fun _ _ => trivial

end Building.Spares

open Building

/-! ### Children -/

section

variable (hP : ∀ f, P f → (s.featureAt f).isContainment = false)
include hP

theorem spares_attachInRole {f : FeatureId} {c : ClassId} (hf : f ∈ s.containments c)
    (child : ElementId) (b : Building τ) : b.Spares id P (attachInRole s id f child b).2 := by
  obtain ⟨target, hkind⟩ := (s.mem_containments_iff.mp hf).2
  rcases attachInRole_cases hf id child b with
    ⟨_, _, -, -, h⟩ | ⟨-, ⟨-, -, h⟩ | ⟨-, m', hm', h⟩⟩ <;> rw [h]
  · exact .problem _ _ b
  · exact .problem _ _ b
  · refine ⟨.attach (fun hPf => ?_) hm', rfl⟩
    simpa [Feature.isContainment, hkind] using hP f hPf

theorem spares_placeMember (member : Member ElementId) (b : Building τ) :
    b.Spares id P (placeMember s id member b).2 := by
  rcases placeMember_cases s id member b with ⟨fault, line, h⟩ | ⟨f, hf, -, h⟩
  · rw [h]
    exact .problem fault line b
  · rw [h]
    exact .forM (spares_attachInRole hP hf) _ b

theorem spares_placeChildren (members : List (Member ElementId)) (b : Building τ) :
    b.Spares id P (placeChildren s id members b).2 :=
  .forM (spares_placeMember hP) members b

end

/-! ### Locations -/

theorem spares_setLocation (hP : ∀ f, P f → s.IsReserved f → (s.featureAt f).dataType? = none)
    (origin : Origin) (line : Nat) (b : Building τ) :
    b.Spares id P (setLocation s origin id line b).2 := by
  refine relates_setLocation .refl .trans (fun b f v hreserved _ htype _ => ?_) origin line b
  exact ⟨.setValue (fun hf => htype (hP f hf hreserved)) v, rfl⟩

/-! ### Comments -/

/-- A keeper that leaves some features alone when it is given comments or a note. -/
structure CommentKeeper.Spares (k : CommentKeeper τ) (s : Schema) (P : FeatureId → Prop) :
    Prop where
  comment : ∀ id c m t, Model.Spares id P m (k.comment s (some id) c (m, t)).2.1
  note : ∀ id text m t, Model.Spares id P m (k.note s id text (m, t)).2.1

theorem AttributeKeeper.spares (k : AttributeKeeper)
    (hP : ∀ f, P f → (s.featureAt f).dataType? ≠ some .string) : k.keeper.Spares s P := by
  have hspares (id : ElementId) := k.relates s id (R := Model.Spares id P) .refl
    fun m f text _ htype => .setValue (fun hf => hP f hf htype) (.string text)
  exact ⟨fun id => (hspares id).1, fun id => (hspares id).2⟩

theorem spares_offerComments {keeper : Option (CommentKeeper τ)}
    (hkeeper : ∀ k ∈ keeper, k.Spares s P) (comments : List Comment) (note : Option String)
    (line : Nat) (b : Building τ) :
    b.Spares id P (offerComments s keeper id comments note line b).2 :=
  relates_offerComments .refl .trans (fun k hk c _ => .offer ((hkeeper k hk).comment id c) _ _)
    (fun k hk text => .offer ((hkeeper k hk).note id text) _ _) (.problem _ line) b

/-! ### The end of a statement -/

theorem spares_furnish (hchildren : ∀ f, P f → (s.featureAt f).isContainment = false)
    (hlocation : ∀ f, P f → s.IsReserved f → (s.featureAt f).dataType? = none)
    {keeper : Option (CommentKeeper τ)} (hkeeper : ∀ k ∈ keeper, k.Spares s P) (origin : Origin)
    (c : ClassId) (statement : Statement ElementId) (b : Building τ) :
    (begin s c statement b).Spares b.model.size P (conclude s origin keeper c statement b) :=
  ((spares_placeChildren hchildren statement.members _).trans
    (spares_setLocation hlocation origin _ _)).trans
      (spares_offerComments hkeeper statement.comments statement.note _ _)

end CommandText
