import CommandText.Proofs.BuildSteps
import CommandText.Proofs.SoundModel
import CommandText.Proofs.Visiting
import Mathlib.Logic.Relation

/-!
# Every text gives a sound model

A statement creates an element when its block is complete and then works on it: arguments fill its
slots, the elements of its block are put into it, and its location and comments are noted. Nothing
of this touches an element that was there before the statement, so what holds of the model is
handed on from statement to statement.
-/

namespace CommandText

open List Feature

variable {inner : Option ClassId} {c : ClassId} {first id : ElementId} {s : Schema} {τ : Type}
  {keeper : Option (CommentKeeper τ)} {b b₁ b₂ : Building τ}

namespace Model

variable {m m₁ m₂ m₃ : Model}

/-- Work on the element of a statement. Elements before the first one of the statement are left
alone. -/
structure Work (s : Schema) (first id : ElementId) (m m' : Model) : Prop where
  sound : m.Sound s → m'.Sound s
  size : m'.size = m.size
  classOf : ∀ j, m'.classOf j = m.classOf j
  before : ∀ j < first, m'.elementAt j = m.elementAt j
  container : m'.container id = m.container id

theorem Work.refl (m : Model) : Work s first id m m :=
  ⟨fun h => h, rfl, fun _ => rfl, fun _ _ => rfl, rfl⟩

theorem Work.trans (h : Work s first id m₁ m₂) (h' : Work s first id m₂ m₃) :
    Work s first id m₁ m₃ where
  sound hs := h'.sound (h.sound hs)
  size := h'.size.trans h.size
  classOf j := (h'.classOf j).trans (h.classOf j)
  before j hj := (h'.before j hj).trans (h.before j hj)
  container := h'.container.trans h.container

theorem Work.fill (hfirst : first ≤ id) {g : Slots → Slots}
    (hsound : m.Sound s → (m.fill id g).Sound s) : Work s first id m (m.fill id g) where
  sound := hsound
  size := m.size_fill id g
  classOf := m.classOf_fill id g
  before _ hj := m.elementAt_fill_of_ne id g (Nat.ne_of_lt (Nat.lt_of_lt_of_le hj hfirst))
  container := m.container_fill id g id

theorem Work.setValue (hfirst : first ≤ id) {f : FeatureId} (hf : f ∈ s.arguments (m.classOf id))
    {v : Value} (hv : s.takes (s.featureAt f).kind v = true) :
    Work s first id m (m.setValue id f v) :=
  .fill hfirst fun h => h.setValue hf hv

/-- One of some children is put into a containment of the element that takes it. -/
def Takes (s : Schema) (id : ElementId) (children : ElementId → Prop) (m m' : Model) : Prop :=
  ∃ f child, children child ∧ f ∈ s.containments (m.classOf id) ∧
    (s.featureAt f).target?.any (s.conforms (m.classOf child)) = true ∧
    ((s.featureAt f).many = false → m.values id f = []) ∧ m.attach? id f child = some m'

/-- Some children are put into the element, one after the other. -/
def TakesAll (s : Schema) (id : ElementId) (children : ElementId → Prop) : Model → Model → Prop :=
  Relation.ReflTransGen (Takes s id children)

theorem TakesAll.classOf {children : ElementId → Prop} (h : TakesAll s id children m m₁)
    (j : ElementId) : m₁.classOf j = m.classOf j := by
  induction h with
  | refl => rfl
  | tail _ hstep ih =>
    obtain ⟨f, child, -, -, -, -, hattach⟩ := hstep
    exact (classOf_of_attach? _ hattach j).trans ih

theorem Work.of_takesAll (h : TakesAll s id (fun child => first ≤ child ∧ child < id) m m₁)
    (hid : id < m.size) : Work s first id m m₁ := by
  induction h with
  | refl => exact .refl m
  | tail _ hstep ih =>
    refine ih.trans ?_
    obtain ⟨f, child, ⟨hfirst, hchild⟩, hf, htarget, hroom, hattach⟩ := hstep
    have hid := ih.size ▸ hid
    have hattached := attached_of_attach? _ hattach hid (Nat.lt_trans hchild hid)
    obtain ⟨hfree, hne, -⟩ := (attach?_eq_some_iff _).mp hattach
    refine ⟨fun h => h.attach hattached hfree hchild hf htarget hroom, hattached.size,
      hattached.classOf, fun j hj => hattached.others j ?_ ?_, ?_⟩
    · exact Nat.ne_of_lt (Nat.lt_of_lt_of_le hj (Nat.le_of_lt (Nat.lt_of_le_of_lt hfirst hchild)))
    · exact Nat.ne_of_lt (Nat.lt_of_lt_of_le hj hfirst)
    · rw [hattached.container, if_neg hne]

end Model

/-- Whether a child is said not to be the first one. -/
def Fault.isSecondChild : Fault → Bool
  | singleChildOnly _ => true
  | _ => false

namespace BuildM

open Model
variable {children : ElementId → Prop} {f : FeatureId}

/-! ### The parts of the work -/

theorem work_bindArguments (hs : s.Accepted) (hfirst : first ≤ id) (arguments : List Argument)
    (line : Nat) (hempty : ∀ f, b.model.values id f = []) :
    Work s first id b.model (bindArguments s id arguments line b).2.model := by
  change Work s first id b.model (bindRest s id (b.model.classOf id) line 0 [] arguments b).2.model
  rw [model_bindRest]
  refine .fill hfirst fun h => h.fill ?_ fun f hf => hs.get_argumentSlots hf _ _
  exact hs.fits_argumentSlots arguments (h.fits id) fun f _ _ => hempty f

theorem attachInRole_cases (hf : f ∈ s.containments c) (id child : ElementId) (b : Building τ) :
    (∃ fault line, fault.isSecondChild = false ∧
      ((s.featureAt f).target?.any (s.conforms (b.model.classOf child)) = false ∨
        b.model.attach? id f child = none) ∧ attachInRole s id f child b = problem fault line b) ∨
    ((s.featureAt f).target?.any (s.conforms (b.model.classOf child)) = true ∧
      ((s.featureAt f).many = false ∧ b.model.values id f ≠ [] ∧ attachInRole s id f child b =
          problem (.singleChildOnly (s.featureAt f).name) (childLine b.model child) b ∨
        ((s.featureAt f).many = false → b.model.values id f = []) ∧
          ∃ m', b.model.attach? id f child = some m' ∧
            attachInRole s id f child b = ((), { b with model := m' }))) := by
  obtain ⟨target, hkind⟩ := (s.mem_containments_iff.mp hf).2
  have htarget : (s.featureAt f).target? = some target := by rw [Feature.target?, hkind]
  generalize hanswer : attachInRole s id f child b = answer
  rw [attachInRole, getModel_bind_apply] at hanswer
  simp only [htarget] at hanswer
  rw [htarget, Option.any_some]
  split at hanswer
  · next hconforms => exact .inl ⟨_, _, rfl, .inl (by simpa using hconforms), hanswer.symm⟩
  · next hconforms =>
    have hconforms : s.conforms (b.model.classOf child) target = true := by simpa using hconforms
    split at hanswer
    · next hset =>
      rw [isSet, Bool.and_eq_true, Bool.not_eq_true', Bool.not_eq_true', isEmpty_eq_false_iff]
        at hset
      exact .inr ⟨hconforms, .inl ⟨hset.1, hset.2, hanswer.symm⟩⟩
    · next hroom =>
      cases hattach : b.model.attach? id f child with
      | none =>
        rw [hattach] at hanswer
        exact .inl ⟨_, _, rfl, .inr rfl, hanswer.symm⟩
      | some m' =>
        rw [hattach] at hanswer
        refine .inr ⟨hconforms, .inr ⟨fun hmany => ?_, m', rfl, hanswer.symm⟩⟩
        simpa [hmany, isSet] using hroom

theorem takes_attachInRole {child : ElementId} (hf : f ∈ s.containments (b.model.classOf id))
    (hchild : children child) :
    TakesAll s id children b.model (attachInRole s id f child b).2.model := by
  rcases attachInRole_cases hf id child b with
    ⟨_, _, -, -, h⟩ | ⟨htarget, ⟨-, -, h⟩ | ⟨hroom, m', hm', h⟩⟩ <;> rw [h]
  · exact .refl
  · exact .refl
  · exact .single ⟨f, child, hchild, hf, htarget, hroom, hm'⟩

theorem mem_containments_of_accepting {d : ClassId} (h : s.containmentsAccepting c d = [f]) :
    f ∈ s.containments c := by
  have hmem : f ∈ s.containmentsAccepting c d := by
    rw [h]
    exact mem_singleton_self f
  exact (mem_filter.mp hmem).1

/-- The containment that a member is for: without a role the only one that takes the child, and
otherwise the one that the role names. -/
def Directs (s : Schema) (m : Model) (c : ClassId) (f : FeatureId) : Member ElementId → Prop
  | .child child => s.containmentsAccepting c (m.classOf child) = [f] ∧
      (s.featureAt f).labeled = false
  | .role label _ _ => s.featureNamed? c label.text = some f

theorem placeMember_cases (s : Schema) (id : ElementId) (member : Member ElementId)
    (b : Building τ) : (∃ fault line, placeMember s id member b = problem fault line b) ∨
      ∃ f ∈ s.containments (b.model.classOf id), Directs s b.model (b.model.classOf id) f member ∧
        placeMember s id member b = member.answers.forM (attachInRole s id f) b := by
  cases member with
  | child child =>
    rw [placeMember, attachUnlabeled, getModel_bind_apply]
    rcases hf : s.containmentsAccepting (b.model.classOf id) (b.model.classOf child) with
      _ | ⟨f, _ | ⟨g, fs⟩⟩
    · exact .inl ⟨_, _, rfl⟩
    · by_cases hlabeled : (s.featureAt f).labeled = true
      · exact .inl ⟨_, _, by simp only [hlabeled, if_true]; rfl⟩
      · rw [Bool.not_eq_true] at hlabeled
        refine .inr ⟨f, mem_containments_of_accepting hf, ⟨hf, hlabeled⟩, ?_⟩
        simp only [hlabeled, if_false, Bool.false_eq_true]
        rfl
    · exact .inl ⟨_, _, rfl⟩
  | role label children list =>
    rw [placeMember, getModel_bind_apply]
    cases hf : s.featureNamed? (b.model.classOf id) label.text with
    | none => exact .inl ⟨_, _, rfl⟩
    | some f =>
      by_cases hkind : (s.featureAt f).isContainment = true
      · refine .inr ⟨f, mem_filter.mpr ⟨mem_of_find?_eq_some hf, hkind⟩, hf, ?_⟩
        simp only [hkind, if_true]
        rfl
      · exact .inl ⟨_, _, by simp only [hkind, if_false, Bool.false_eq_true]; rfl⟩

theorem takes_forM {α : Type} {f : α → BuildM τ Unit} {as : List α}
    (h : ∀ a ∈ as, ∀ b' : Building τ, b'.model.classOf id = b.model.classOf id →
      TakesAll s id children b'.model (f a b').2.model) :
    TakesAll s id children b.model (as.forM f b).2.model := by
  induction as generalizing b with
  | nil => exact .refl
  | cons a as ih =>
    obtain ⟨hfirst, hlater⟩ := forall_mem_cons.mp h
    have hfirst := hfirst b rfl
    exact hfirst.trans (ih fun c hc b' hb' => hlater c hc b' (hb'.trans (hfirst.classOf id)))

theorem takes_placeMember {member : Member ElementId}
    (hchildren : ∀ child ∈ member.answers, children child) :
    TakesAll s id children b.model (placeMember s id member b).2.model := by
  rcases placeMember_cases s id member b with ⟨fault, line, h⟩ | ⟨f, hf, -, h⟩
  · rw [h]
    exact .refl
  · rw [h]
    exact takes_forM fun child hchild _ hb => takes_attachInRole (hb ▸ hf) (hchildren child hchild)

theorem takes_placeChildren {members : List (Member ElementId)}
    (hchildren : ∀ member ∈ members, ∀ child ∈ member.answers, children child) :
    TakesAll s id children b.model (placeChildren s id members b).2.model :=
  takes_forM fun member hmember _ _ => takes_placeMember (hchildren member hmember)

/-- Locations are numbers and texts. -/
def IsLocation : Value → Prop
  | .integer _ | .string _ => True
  | _ => False

theorem takes_of_fitsLocation {f : Feature} {v : Value} (hv : IsLocation v)
    (h : fitsLocation f.dataType? v = true) :
    s.takes f.kind v = true ∧ f.isContainment = false ∧ f.dataType? ≠ none := by
  rw [dataType?] at h ⊢
  rw [isContainment]
  cases hf : f.kind with
  | reference c | containment c =>
    rw [hf] at h
    cases v <;> simp [fitsLocation] at h
  | data d =>
    rw [hf] at h
    refine ⟨?_, rfl, by simp⟩
    cases v with
    | integer n | string t => cases d <;> simp [fitsLocation] at h <;> rfl
    | _ => exact hv.elim

theorem setLocationPart_cases (s : Schema) (id : ElementId) (name : Option String)
    {value : Option Value} (hvalue : ∀ v ∈ value, IsLocation v) (b : Building τ) :
    (setLocationPart s id name value b).2 = b ∨
    ∃ f v, name = some (s.featureAt f).name ∧ f ∈ s.arguments (b.model.classOf id) ∧
      (s.featureAt f).dataType? ≠ none ∧ s.takes (s.featureAt f).kind v = true ∧
      (setLocationPart s id name value b).2 = { b with model := b.model.setValue id f v } := by
  rw [setLocationPart, getModel_bind_apply]
  cases name with
  | none => exact .inl rfl
  | some name =>
    cases value with
    | none => exact .inl rfl
    | some v =>
      cases hf : s.featureNamed? (b.model.classOf id) name with
      | none =>
        simp only [hf]
        exact .inl rfl
      | some f =>
        simp only [hf]
        by_cases hfits : fitsLocation (s.featureAt f).dataType? v = true
        · rw [if_pos hfits]
          obtain ⟨htakes, hkind, htype⟩ := takes_of_fitsLocation (s := s) (hvalue v rfl) hfits
          have hname : (s.featureAt f).name = name := by simpa using find?_some hf
          exact .inr ⟨f, v, by rw [hname], s.mem_arguments_iff.mpr ⟨mem_of_find?_eq_some hf, hkind⟩,
            htype, htakes, rfl⟩
        · rw [if_neg hfits]
          exact .inl rfl

theorem isLocation_line (line : Nat) : ∀ v ∈ some (Value.integer line), IsLocation v := by
  simp [IsLocation]

theorem isLocation_text (t : Option String) : ∀ v ∈ t.map Value.string, IsLocation v := by
  cases t <;> simp [IsLocation]

end BuildM

/-- The schema reserves an attribute for a part of the location. -/
def Schema.IsReserved (s : Schema) (f : FeatureId) : Prop :=
  some (s.featureAt f).name ∈ [s.lineAttribute, s.fileAttribute, s.fragmentAttribute]

instance (s : Schema) (f : FeatureId) : Decidable (s.IsReserved f) :=
  inferInstanceAs (Decidable (_ ∈ [_, _, _]))

namespace BuildM

open Model

theorem relates_setLocation {R : Building τ → Building τ → Prop} (hrefl : ∀ b, R b b)
    (htrans : ∀ {b b' b''}, R b b' → R b' b'' → R b b'')
    (hset : ∀ (b : Building τ) (f : FeatureId) (v : Value), s.IsReserved f →
      f ∈ s.arguments (b.model.classOf id) → (s.featureAt f).dataType? ≠ none →
      s.takes (s.featureAt f).kind v = true → R b { b with model := b.model.setValue id f v })
    (origin : Origin) (line : Nat) (b : Building τ) : R b (setLocation s origin id line b).2 := by
  have hpart {name : Option String} {value : Option Value}
      (hname : name ∈ [s.lineAttribute, s.fileAttribute, s.fragmentAttribute])
      (hvalue : ∀ v ∈ value, IsLocation v) (b : Building τ) :
      R b (setLocationPart s id name value b).2 := by
    rcases setLocationPart_cases s id name hvalue b with h | ⟨f, v, rfl, hf, htype, htakes, h⟩
    · rw [h]
      exact hrefl b
    · rw [h]
      exact hset b f v hname hf htype htakes
  exact htrans (hpart (by simp) (isLocation_line line) b) (htrans
    (hpart (by simp) (isLocation_text origin.file) _)
    (hpart (by simp) (isLocation_text origin.fragment) _))

theorem work_setLocation (hfirst : first ≤ id) (origin : Origin) (line : Nat) (b : Building τ) :
    Work s first id b.model (setLocation s origin id line b).2.model :=
  relates_setLocation (R := fun b b' => Work s first id b.model b'.model) (fun _ => .refl _) .trans
    (fun _ _ _ _ hf _ htakes => .setValue hfirst hf htakes) origin line b

end BuildM

/-! ### Comments -/

open Model

/-- A keeper that stores comments and notes in arguments of the element only. -/
structure CommentKeeper.Tame {τ : Type} (k : CommentKeeper τ) : Prop where
  comment : ∀ (s : Schema) {first id : ElementId}, first ≤ id → ∀ (c : Comment) (m : Model) (t : τ),
    Work s first id m (k.comment s (some id) c (m, t)).2.1
  note : ∀ (s : Schema) {first id : ElementId}, first ≤ id → ∀ (text : String) (m : Model) (t : τ),
    Work s first id m (k.note s id text (m, t)).2.1
  loose : ∀ (s : Schema) (c : Comment) (m : Model) (t : τ), (k.comment s none c (m, t)).2.1 = m

theorem CommentKeeper.tame_of_mem_none {τ : Type} :
    ∀ k ∈ (none : Option (CommentKeeper τ)), k.Tame := nofun

theorem AttributeKeeper.relates (k : AttributeKeeper) (s : Schema) (id : ElementId)
    {R : Model → Model → Prop} (hrefl : ∀ m, R m m)
    (hset : ∀ (m : Model) (f : FeatureId) (text : String), f ∈ s.featuresOf (m.classOf id) →
      (s.featureAt f).dataType? = some .string → R m (m.setValue id f (.string text))) :
    (∀ c m t, R m (k.keeper.comment s (some id) c (m, t)).2.1) ∧
      ∀ text m t, R m (k.keeper.note s id text (m, t)).2.1 := by
  have hkeep (name text : String) (m : Model) (t : Unit) :
      R m (keep s id name text (m, t)).2.1 := by
    cases h : appendText? s m id name text with
    | none =>
      simp only [keep, h]
      exact hrefl m
    | some m' =>
      simp only [keep, h]
      obtain ⟨f, hf, h⟩ := Option.bind_eq_some_iff.mp h
      split at h
      · next htype =>
        cases h
        exact hset m f _ (mem_of_find?_eq_some hf) htype
      · cases h
  refine ⟨fun c m t => ?_, fun text m t => hkeep _ text m t⟩
  rw [keeper]
  cases hkind : c.kind with
  | above | lineEnd =>
    simp only [hkind]
    exact hkeep _ _ m t
  | loose =>
    simp only [hkind]
    exact hrefl m

theorem Feature.kind_of_dataType? {f : Feature} {d : DataType} (h : f.dataType? = some d) :
    f.kind = .data d := by
  rw [dataType?] at h
  split at h
  · next hd => rw [hd, Option.some.inj h]
  · cases h

theorem AttributeKeeper.tame (k : AttributeKeeper) : k.keeper.Tame := by
  have hwork (s : Schema) {first id : ElementId} (hfirst : first ≤ id) :=
    k.relates s id (R := Work s first id) .refl fun m f text hf htype => by
      have hkind := kind_of_dataType? htype
      refine .setValue hfirst (s.mem_arguments_iff.mpr ⟨hf, ?_⟩) ?_
      · rw [isContainment, hkind]
      · rw [hkind]
        rfl
  exact ⟨fun s _ _ hfirst => (hwork s hfirst).1, fun s _ _ hfirst => (hwork s hfirst).2,
    fun _ _ _ _ => rfl⟩

namespace BuildM

theorem model_offerComments_none (comments : List Comment) (note : Option String) (line : Nat)
    (b : Building τ) : (offerComments s none id comments note line b).2.model = b.model := by
  induction comments generalizing b with
  | nil => cases note <;> rfl
  | cons c comments ih => exact ih b

theorem work_offerComments (hkeeper : ∀ k ∈ keeper, k.Tame) (hfirst : first ≤ id)
    (comments : List Comment) (note : Option String) (line : Nat) (b : Building τ) :
    Work s first id b.model (offerComments s keeper id comments note line b).2.model := by
  refine relates_offerComments (R := fun b b' => Work s first id b.model b'.model)
    (fun _ => .refl _) .trans (fun k hk c _ b => ?_) (fun k hk text b => ?_) (fun _ => .refl _) b
  · rw [(offer_spec _ _ _ b).1]
    exact (hkeeper k hk).comment s hfirst c b.model b.keeper
  · rw [(offer_spec _ _ _ b).1]
    exact (hkeeper k hk).note s hfirst text b.model b.keeper

end BuildM

/-! ### Runs -/

namespace Building
variable {ms : List (Member ElementId)} {enclosing : Option (Option ClassId)} {b' : Building τ}

/-- A state of the work on a text, with all elements listed and roots that nothing contains. -/
structure Sound (s : Schema) (b : Building τ) : Prop where
  model : b.model.Sound s
  elements : b.elements = List.range b.model.size
  roots : ∀ r ∈ b.roots, r < b.model.size ∧ b.model.container r = none

/-- A run over entries: elements that were there are left alone, and what is handed on is new.
Inside a statement there are no new roots. -/
structure Run (s : Schema) (enclosing : Option (Option ClassId)) (b : Building τ)
    (members : List (Member ElementId)) (b' : Building τ) : Prop where
  sound : b.Sound s → b'.Sound s
  size_le : b.model.size ≤ b'.model.size
  before : ∀ j < b.model.size, b'.model.elementAt j = b.model.elementAt j
  answers : ∀ member ∈ members, ∀ id ∈ member.answers, b.model.size ≤ id ∧ id < b'.model.size
  roots : enclosing.isSome = true → b'.roots = b.roots

theorem Run.of_eq (hmodel : b'.model = b.model) (hroots : b'.roots = b.roots)
    (helements : b'.elements = b.elements) : Run s enclosing b [] b' := by
  refine ⟨fun h => ?_, ?_, ?_, by simp, fun _ => hroots⟩
  · exact ⟨hmodel ▸ h.model, by rw [helements, hmodel, h.elements],
      by rw [hroots, hmodel]; exact h.roots⟩
  · exact Nat.le_of_eq (congrArg Model.size hmodel.symm)
  · rw [hmodel]
    exact fun _ _ => rfl

theorem Run.append {b₃ : Building τ} {ms' : List (Member ElementId)} (h : Run s enclosing b₁ ms b₂)
    (h' : Run s enclosing b₂ ms' b₃) :
    Run s enclosing b₁ (ms ++ ms') b₃ where
  sound hs := h'.sound (h.sound hs)
  size_le := Nat.le_trans h.size_le h'.size_le
  before j hj := (h'.before j (Nat.lt_of_lt_of_le hj h.size_le)).trans (h.before j hj)
  answers member hmember id hid := by
    rcases mem_append.mp hmember with hmember | hmember
    · obtain ⟨hle, hlt⟩ := h.answers member hmember id hid
      exact ⟨hle, Nat.lt_of_lt_of_le hlt h'.size_le⟩
    · obtain ⟨hle, hlt⟩ := h'.answers member hmember id hid
      exact ⟨Nat.le_trans h.size_le hle, hlt⟩
  roots hsome := (h'.roots hsome).trans (h.roots hsome)

theorem Run.abandon (h : Run s (some inner) b ms b') :
    Run s enclosing b [] b' where
  sound := h.sound
  size_le := h.size_le
  before := h.before
  answers := by simp
  roots _ := h.roots rfl

theorem Run.role (h : Run s enclosing b ms b') (label : Token) (list : Bool) :
    Run s enclosing b [.role label (ms.filterMap Member.child?) list] b' where
  sound := h.sound
  size_le := h.size_le
  before := h.before
  answers := by
    simp only [mem_singleton, forall_eq, Member.answers, mem_filterMap]
    rintro id ⟨member, hmember, hid⟩
    cases member with
    | child a =>
      cases hid
      exact h.answers _ hmember _ (mem_singleton_self _)
    | role => cases hid
  roots := h.roots

theorem Run.create {b₃ : Building τ} (h : Run s (some inner) b₁ ms b₂)
    (hc : (s.classAt c).isAbstract = false) (line : Nat)
    (hwork : Work s b₁.model.size b₂.model.size (b₂.model.create c (some line)) b₃.model)
    (helements : b₃.elements = b₂.elements ++ [b₂.model.size])
    (hroots : b₃.roots = if enclosing.isNone then b₂.roots ++ [b₂.model.size] else b₂.roots) :
    Run s enclosing b₁ [.child b₂.model.size] b₃ := by
  have hsize : b₃.model.size = b₂.model.size + 1 := by rw [hwork.size, size_create]
  have hlt : b₂.model.size < b₃.model.size := hsize ▸ Nat.lt_succ_self _
  have hbefore : ∀ j < b₁.model.size, b₃.model.elementAt j = b₁.model.elementAt j := by
    intro j hj
    have hj₂ : j < b₂.model.size := Nat.lt_of_lt_of_le hj h.size_le
    rw [hwork.before j hj, elementAt_create, if_neg (Nat.ne_of_lt hj₂), h.before j hj]
  refine ⟨fun hs => ?_, Nat.le_trans h.size_le (Nat.le_of_lt hlt), hbefore, ?_, fun hsome => ?_⟩
  · have hs₂ := h.sound hs
    refine ⟨hwork.sound (hs₂.model.create hc _), ?_, fun r hr => ?_⟩
    · rw [helements, hs₂.elements, hsize, range_succ]
    · -- the roots are those before the statement and perhaps its own element
      have hcases : r ∈ b₁.roots ∨ r = b₂.model.size := by
        rw [hroots, h.roots rfl] at hr
        split at hr
        · simpa using hr
        · exact .inl hr
      rcases hcases with hr | rfl
      · obtain ⟨hr₁, hnone⟩ := hs.roots r hr
        refine ⟨Nat.lt_of_lt_of_le hr₁ (Nat.le_trans h.size_le (Nat.le_of_lt hlt)), ?_⟩
        rw [container, hbefore r hr₁]
        exact hnone
      · refine ⟨hlt, ?_⟩
        rw [hwork.container, container_create, container_eq_none _ (Nat.le_refl _)]
  · simp only [mem_singleton, forall_eq, Member.answers]
    exact ⟨h.size_le, hlt⟩
  · rw [hroots, if_neg (by simp [Option.isNone_iff_eq_none, Option.isSome_iff_ne_none.mp hsome])]
    exact h.roots rfl

end Building

open Building BuildM

variable {statement : Statement ElementId}

/-- What is done with an element after its creation. -/
def furnish (s : Schema) (origin : Origin) (keeper : Option (CommentKeeper τ))
    (statement : Statement ElementId) (id : ElementId) : BuildM τ Unit := do
  bindArguments s id statement.arguments statement.command.line
  placeChildren s id statement.members
  setLocation s origin id statement.command.line
  offerComments s keeper id statement.comments statement.note statement.command.line

instance (origin : Origin) (keeper : Option (CommentKeeper τ)) (statement : Statement ElementId)
    (id : ElementId) : Modest (furnish s origin keeper statement id) := by
  unfold furnish
  infer_instance

theorem work_furnish (hs : s.Accepted) (origin : Origin) (hkeeper : ∀ k ∈ keeper, k.Tame)
    (statement : Statement ElementId) {first id : ElementId}
    (hmembers : ∀ member ∈ statement.members, ∀ child ∈ member.answers, first ≤ child ∧ child < id)
    (hfirst : first ≤ id) (hid : id < b.model.size) (hempty : ∀ f, b.model.values id f = []) :
    Work s first id b.model (furnish s origin keeper statement id b).2.model := by
  have harguments := work_bindArguments hs hfirst statement.arguments statement.command.line hempty
  refine harguments.trans (Work.trans (.of_takesAll (takes_placeChildren hmembers) ?_) ?_)
  · rw [harguments.size]
    exact hid
  · exact (work_setLocation hfirst origin _ _).trans
      (work_offerComments hkeeper hfirst statement.comments statement.note _ _)

/-- The state behind a statement: its element has been created and furnished. -/
def conclude (s : Schema) (origin : Origin) (keeper : Option (CommentKeeper τ)) (c : ClassId)
    (statement : Statement ElementId) (b : Building τ) : Building τ :=
  (furnish s origin keeper statement b.model.size
    (BuildM.create c statement.command.line statement.isRoot b).2).2

theorem leave_of_concrete (origin : Origin) (keeper : Option (CommentKeeper τ))
    (statement : Statement ElementId) (hc : (s.classAt c).isAbstract = false) (b : Building τ) :
    (builder s origin keeper).leave statement (some c) b =
      (some b.model.size, conclude s origin keeper c statement b) := by
  unfold builder
  simp only [hc, if_false, Bool.false_eq_true]
  rfl

/-- A statement ends with a problem of its command word or with a new element. -/
theorem leave_cases (s : Schema) (origin : Origin) (keeper : Option (CommentKeeper τ))
    (statement : Statement ElementId) (scope : Option ClassId) (b : Building τ) :
    (∃ fault, (fault = s.missingCommand statement.command.text statement.isRoot ∨
        ∃ name, fault = .abstractClass statement.command.text name) ∧
      (builder s origin keeper).leave statement scope b =
        (none, (problem fault statement.command.line b).2)) ∨
    ∃ c, scope = some c ∧ (s.classAt c).isAbstract = false ∧
      (builder s origin keeper).leave statement scope b =
        (some b.model.size, conclude s origin keeper c statement b) := by
  cases scope with
  | none => exact .inl ⟨_, .inl rfl, rfl⟩
  | some c =>
    cases hc : (s.classAt c).isAbstract with
    | false => exact .inr ⟨c, rfl, hc, leave_of_concrete origin keeper statement hc b⟩
    | true =>
      refine .inl ⟨_, .inr ⟨s.className c, rfl⟩, ?_⟩
      unfold builder
      simp only [hc, if_true]
      rfl

theorem work_create (hs : s.Accepted) (origin : Origin) (hkeeper : ∀ k ∈ keeper, k.Tame)
    (h : Run s (some inner) b₁ statement.members b₂) (c : ClassId) :
    Work s b₁.model.size b₂.model.size (b₂.model.create c (some statement.command.line))
      (conclude s origin keeper c statement b₂).model := by
  show Work s _ _ (BuildM.create c statement.command.line statement.isRoot b₂).2.model _
  refine work_furnish hs origin hkeeper statement h.answers h.size_le ?_ fun f => ?_
  · exact (size_create _ _ _).symm ▸ Nat.lt_succ_self _
  · exact (values_create _ _ _ _ _).trans (values_eq_nil _ (Nat.le_refl _) f)

theorem run_leave (hs : s.Accepted) (origin : Origin) (hkeeper : ∀ k ∈ keeper, k.Tame)
    {enclosing : Option (Option ClassId)} (h : Run s (some inner) b₁ statement.members b₂)
    (hroot : statement.isRoot = enclosing.isNone) :
    Run s enclosing b₁
      (((builder s origin keeper).leave statement inner b₂).1.toList.map .child)
      ((builder s origin keeper).leave statement inner b₂).2 := by
  rcases leave_cases s origin keeper statement inner b₂ with ⟨fault, -, heq⟩ | ⟨c, rfl, hc, heq⟩
  · rw [heq]
    exact h.abandon.append (.of_eq rfl rfl rfl)
  · rw [heq]
    have hmodest : Modest (furnish s origin keeper statement b₂.model.size) := inferInstance
    refine h.create hc statement.command.line (work_create hs origin hkeeper h c)
      (hmodest.elements _) ?_
    rw [← hroot]
    exact hmodest.roots _

theorem run_comment (origin : Origin) (hkeeper : ∀ k ∈ keeper, k.Tame)
    (enclosing : Option (Option ClassId)) (c : Comment) (b : Building τ) :
    Run s enclosing b [] ((builder s origin keeper).comment c b).2 := by
  cases keeper with
  | none => exact .of_eq rfl rfl rfl
  | some k =>
    have hmodel := (hkeeper k rfl).loose s c b.model b.keeper
    refine .of_eq ((offer_spec _ _ _ b).1.trans hmodel) ?_ ?_
    · exact Modest.roots (x := do unless ← offer (k.comment s none c) do
        problem .looseCommentRefused c.line) b
    · exact Modest.elements (x := do unless ← offer (k.comment s none c) do
        problem .looseCommentRefused c.line) b

theorem run_builder (hs : s.Accepted) (origin : Origin) (hkeeper : ∀ k ∈ keeper, k.Tame)
    (enclosing : Option (Option ClassId)) (entries : List Entry) (b : Building τ) :
    Run s enclosing b (Entry.visitAll (builder s origin keeper) enclosing entries b).1
      (Entry.visitAll (builder s origin keeper) enclosing entries b).2 := by
  refine Visitor.Keeps.visitAll (v := builder s origin keeper) ⟨?_, ?_, ?_, ?_, ?_, ?_⟩
    enclosing entries b
  · exact fun _ _ => .of_eq rfl rfl rfl
  · exact fun h h' => h.append h'
  · exact fun enclosing c b => run_comment origin hkeeper enclosing c b
  · exact fun label list h => h.role label list
  · exact fun h => h.abandon
  · exact fun _ _ _ h => run_leave hs origin hkeeper h rfl

theorem sound_instantiateWith (hs : s.Accepted) (origin : Origin) (hkeeper : ∀ k ∈ keeper, k.Tame)
    (state : τ) (text : List Char) : let r := instantiateWith s origin keeper state {} text
    r.model.Sound s ∧ r.elements = List.range r.model.size ∧
      ∀ root ∈ r.roots, root < r.model.size ∧ r.model.container root = none := by
  have hrun := run_builder hs origin hkeeper none (parse (tokenize s.pattern text)).entries
    { model := {}, keeper := state }
  obtain ⟨hmodel, helements, hroots⟩ := hrun.sound ⟨sound_empty s, rfl, by simp⟩
  exact ⟨hmodel, helements, hroots⟩

end CommandText
