import CommandText.Proofs.NewElements

/-!
# Children in the order of their statements

At the end of a statement, the elements of its block are put into the new element one after the
other. If no problem is told, each of them gets its place: the children in one feature stand in the
order in which the block hands them on. Elements that are contained somewhere stay there, and all
else that is done with the new element leaves the containments alone.
-/

namespace CommandText

open List

variable {j : ElementId} {f : FeatureId}

namespace Model

variable {s : Schema} {id : ElementId} {children children' : List ElementId} {m m₁ m₂ : Model}

/-- Some elements have been put into an element. In each of its containments they stand behind those
that were there, in the order of the list. -/
structure Filled (s : Schema) (id : ElementId) (children : List ElementId) (m m' : Model) :
    Prop where
  size : m'.size = m.size
  classOf : ∀ j, m'.classOf j = m.classOf j
  lineOf : ∀ j, (m'.elementAt j).line = (m.elementAt j).line
  kept : ∀ j p, m.container j = some p → m'.container j = some p
  contained : ∀ j ∈ children, ∃ f ∈ s.containments (m.classOf id), m'.container j = some (id, f)
  others : ∀ j ≠ id, ∀ f, (s.featureAt f).isContainment = true → m'.children j f = m.children j f
  own : ∀ f, (s.featureAt f).isContainment = true →
    m'.children id f = m.children id f ++ children.filter fun j => m'.container j = some (id, f)

theorem Filled.refl (m : Model) : Filled s id [] m m :=
  ⟨rfl, fun _ => rfl, fun _ => rfl, fun _ _ hp => hp, nofun, fun _ _ _ _ => rfl, fun f _ => by
    rw [filter_nil, append_nil]⟩

theorem Filled.append (h : Filled s id children m m₁) (h' : Filled s id children' m₁ m₂) :
    Filled s id (children ++ children') m m₂ where
  size := h'.size.trans h.size
  classOf j := (h'.classOf j).trans (h.classOf j)
  lineOf j := (h'.lineOf j).trans (h.lineOf j)
  kept j p hp := h'.kept j p (h.kept j p hp)
  contained j hj := by
    rcases mem_append.mp hj with hj | hj
    · obtain ⟨f, hf, hcontainer⟩ := h.contained j hj
      exact ⟨f, hf, h'.kept j _ hcontainer⟩
    · rw [← h.classOf]
      exact h'.contained j hj
  others j hj f hf := (h'.others j hj f hf).trans (h.others j hj f hf)
  own f hf := by
    -- the first ones stay where they have been put
    have hfirst : (children.filter fun j => m₁.container j = some (id, f)) =
        children.filter fun j => m₂.container j = some (id, f) := by
      refine filter_congr fun j hj => ?_
      obtain ⟨g, -, hcontainer⟩ := h.contained j hj
      rw [hcontainer, h'.kept j _ hcontainer]
    rw [h'.own f hf, h.own f hf, hfirst, filter_append, append_assoc]

theorem Filled.fill {g : Slots → Slots} (hg : ∀ f, (s.featureAt f).isContainment = true →
    (g (m.elementAt id).values).get f = m.values id f) : Filled s id [] m (m.fill id g) := by
  have hchildren : ∀ j f, (s.featureAt f).isContainment = true →
      (m.fill id g).children j f = m.children j f := by
    intro j f hf
    rw [children, values_fill]
    split
    · next h => rw [hg f hf, h.1, children]
    · rfl
  refine ⟨m.size_fill id g, m.classOf_fill id g, m.lineOf_fill id g, fun j p hp => ?_, nofun,
    fun j _ f hf => hchildren j f hf, fun f hf => ?_⟩
  · rw [container_fill]
    exact hp
  · rw [hchildren id f hf, filter_nil, append_nil]

theorem Filled.setValue (hf : f ∈ s.arguments (m.classOf id)) (v : Value) :
    Filled s id [] m (m.setValue id f v) := by
  rw [setValue_eq_fill]
  refine .fill fun g hg => Slots.get_put_of_ne ?_ _ _
  rintro rfl
  rw [(s.mem_arguments_iff.mp hf).2] at hg
  cases hg

theorem Filled.attach {child : ElementId} {m' : Model} (hf : f ∈ s.containments (m.classOf id))
    (h : m.attach? id f child = some m') (hchild : child < m.size) (hid : id < m.size) :
    Filled s id [child] m m' := by
  obtain ⟨hfree, -, -⟩ := m.attach?_eq_some_iff.mp h
  have hattached := m.attached_of_attach? h hid hchild
  have hcontainer : m'.container child = some (id, f) := by rw [hattached.container, if_pos rfl]
  refine ⟨hattached.size, hattached.classOf, hattached.lineOf, fun j p hp => ?_, fun j hj => ?_,
    fun j hj g _ => ?_, fun g _ => ?_⟩
  · rw [hattached.container, if_neg, hp]
    rintro rfl
    rw [hfree] at hp
    cases hp
  · obtain rfl := mem_singleton.mp hj
    exact ⟨f, hf, hcontainer⟩
  · rw [children, hattached.values, if_neg fun h => hj h.1, children]
  · rw [children, hattached.values]
    by_cases hg : g = f
    · subst hg
      rw [if_pos ⟨rfl, rfl⟩, filterMap_append, filter_singleton, hcontainer]
      simp [children, Value.element?]
    · rw [if_neg fun h => hg h.2, filter_singleton, hcontainer]
      simp [children, Ne.symm hg]

/-! ### A new element -/

section Create

variable {c : ClassId} {line : Option Nat}

section

variable (h : Filled s m.size children (m.create c line) m₁)
include h

theorem Filled.classOf_last : m₁.classOf m.size = c := by
  rw [h.classOf, classOf_create, if_pos rfl]

theorem Filled.classOf_of_lt (hj : j < m.size) : m₁.classOf j = m.classOf j := by
  rw [h.classOf, classOf_create, if_neg (Nat.ne_of_lt hj)]

theorem Filled.kept_of_create {p : ElementId × FeatureId} (hp : m.container j = some p) :
    m₁.container j = some p := by
  refine h.kept j p ?_
  rw [container_create]
  exact hp

theorem Filled.children_of_lt (hj : j < m.size) (hf : (s.featureAt f).isContainment = true) :
    m₁.children j f = m.children j f := by
  rw [h.others j (Nat.ne_of_lt hj) f hf, Model.children, values_create, Model.children]

theorem Filled.children_last (hf : (s.featureAt f).isContainment = true) :
    m₁.children m.size f = children.filter fun j => m₁.container j = some (m.size, f) := by
  have hempty : (m.create c line).children m.size f = [] := by
    rw [Model.children, values_create, m.values_eq_nil (Nat.le_refl _), filterMap_nil]
  rw [h.own f hf, hempty, nil_append]

end

end Create

end Model

open Model BuildM

variable {τ : Type} {s : Schema} {id child : ElementId} {member : Member ElementId}
  {role : Option Token} {b : Building τ}

/-! ### Placing children -/

theorem Member.Hands.mem_answers (h : member.Hands role child) : child ∈ member.answers := by
  cases h with
  | child => exact List.mem_singleton_self _
  | role _ _ h => exact h

/-- The elements that a member hands on are contained where their role leads. -/
def Member.Placed (s : Schema) (id : ElementId) (member : Member ElementId) (m : Model) : Prop :=
  ∀ role child, member.Hands role child →
    ∃ f, s.Receives (m.classOf id) (m.classOf child) role f ∧ m.container child = some (id, f)

theorem filled_forM {α : Type} {f : α → BuildM τ Unit} [∀ a, Modest (f a)]
    (answers : α → List ElementId) {P : α → Model → Prop}
    (hkeep : ∀ {a children m m'}, Filled s id children m m' → P a m → P a m') {as : List α}
    (h : ∀ a ∈ as, ∀ b' : Building τ, b'.model.size = b.model.size →
      b'.model.classOf id = b.model.classOf id → (f a b').2.problems = [] →
      Filled s id (answers a) b'.model (f a b').2.model ∧ P a (f a b').2.model)
    (hproblems : (as.forM f b).2.problems = []) :
    Filled s id (as.flatMap answers) b.model (as.forM f b).2.model ∧
      ∀ a ∈ as, P a (as.forM f b).2.model := by
  induction as generalizing b with
  | nil => exact ⟨.refl _, forall_mem_nil _⟩
  | cons a as ih =>
    obtain ⟨hfirst, hlater⟩ := forall_mem_cons.mp h
    obtain ⟨hfirst, ha⟩ :=
      hfirst b rfl rfl (problems_eq_nil_of_modest (x := as.forM f) hproblems)
    obtain ⟨hrest, has⟩ := ih (fun a' ha' b' hsize hclass =>
      hlater a' ha' b' (hsize.trans hfirst.size) (hclass.trans (hfirst.classOf id))) hproblems
    rw [flatMap_cons]
    exact ⟨hfirst.append hrest, forall_mem_cons.mpr ⟨hkeep hrest ha, has⟩⟩

theorem filled_attachInRole (hf : f ∈ s.containments (b.model.classOf id)) (hchild : child < id)
    (hid : id < b.model.size) (hproblems : (attachInRole s id f child b).2.problems = []) :
    let m := (attachInRole s id f child b).2.model
    Filled s id [child] b.model m ∧
      (s.featureAt f).target?.any (s.conforms (m.classOf child)) = true ∧
        m.container child = some (id, f) := by
  rcases attachInRole_cases hf id child b with
    ⟨_, _, -, -, h⟩ | ⟨htarget, ⟨-, -, h⟩ | ⟨-, m', hm', h⟩⟩
  · rw [h] at hproblems
    exact absurd hproblems (problem_ne_nil _ _ _)
  · rw [h] at hproblems
    exact absurd hproblems (problem_ne_nil _ _ _)
  · rw [h]
    have hattached := b.model.attached_of_attach? hm' hid (Nat.lt_trans hchild hid)
    refine ⟨.attach hf hm' (Nat.lt_trans hchild hid) hid, ?_, ?_⟩
    · rw [hattached.classOf]
      exact htarget
    · rw [hattached.container, if_pos rfl]

theorem filled_placeMember (hanswers : ∀ c ∈ member.answers, c < id) (hid : id < b.model.size)
    (hproblems : (placeMember s id member b).2.problems = []) :
    Filled s id member.answers b.model (placeMember s id member b).2.model ∧
      member.Placed s id (placeMember s id member b).2.model := by
  rcases placeMember_cases s id member b with ⟨fault, line, h⟩ | ⟨f, hf, hdirects, h⟩
  · rw [h] at hproblems
    exact absurd hproblems (problem_ne_nil _ _ _)
  · rw [h] at hproblems ⊢
    obtain ⟨hfilled, hplaced⟩ := filled_forM ([·]) (P := fun child m =>
        (s.featureAt f).target?.any (s.conforms (m.classOf child)) = true ∧
          m.container child = some (id, f))
      (fun h hchild => ⟨h.classOf _ ▸ hchild.1, h.kept _ _ hchild.2⟩)
      (fun child hchild b' hsize hclass =>
        filled_attachInRole (hclass ▸ hf) (hanswers child hchild) (hsize ▸ hid)) hproblems
    rw [flatMap_singleton'] at hfilled
    refine ⟨hfilled, fun role child hhands => ?_⟩
    obtain ⟨htarget, hcontainer⟩ := hplaced child hhands.mem_answers
    refine ⟨f, ⟨hfilled.classOf id ▸ hf, htarget, ?_⟩, hcontainer⟩
    rw [hfilled.classOf, hfilled.classOf]
    cases hhands with
    | child => exact hdirects
    | role => exact hdirects

theorem filled_placeChildren {members : List (Member ElementId)}
    (hanswers : ∀ member ∈ members, ∀ c ∈ member.answers, c < id) (hid : id < b.model.size)
    (hproblems : (placeChildren s id members b).2.problems = []) :
    let m := (placeChildren s id members b).2.model
    Filled s id (members.flatMap Member.answers) b.model m ∧
      ∀ member ∈ members, member.Placed s id m := by
  refine filled_forM _ (fun h hplaced role child hhands => ?_) (fun member hmember b' hsize _ =>
    filled_placeMember (hanswers member hmember) (hsize ▸ hid)) hproblems
  obtain ⟨f, hreceives, hcontainer⟩ := hplaced role child hhands
  rw [h.classOf, h.classOf]
  exact ⟨f, hreceives, h.kept _ _ hcontainer⟩

/-! ### The end of a statement -/

theorem filled_bindArguments (hs : s.Accepted) (arguments : List Argument) (line : Nat)
    (b : Building τ) : Filled s id [] b.model (bindArguments s id arguments line b).2.model := by
  show Filled s id [] b.model (bindRest s id (b.model.classOf id) line 0 [] arguments b).2.model
  rw [model_bindRest]
  refine .fill fun f hf => hs.get_argumentSlots (fun hargument => ?_) _ _
  rw [(s.mem_arguments_iff.mp hargument).2] at hf
  cases hf

theorem filled_setLocation (origin : Origin) (line : Nat) (b : Building τ) :
    Filled s id [] b.model (setLocation s origin id line b).2.model :=
  relates_setLocation (R := fun b b' => Filled s id [] b.model b'.model) (fun _ => .refl _)
    (fun h h' => h.append h') (fun _ _ v _ hf _ _ => .setValue hf v) origin line b

theorem filled_furnish (hs : s.Accepted) (origin : Origin) (statement : Statement ElementId)
    (hanswers : ∀ member ∈ statement.members, ∀ c ∈ member.answers, c < id)
    (hid : id < b.model.size) (hproblems : (furnish s origin none statement id b).2.problems = []) :
    Filled s id (statement.members.flatMap Member.answers) b.model
      (furnish s origin none statement id b).2.model := by
  let bound := (bindArguments s id statement.arguments statement.command.line b).2
  have harguments : Filled s id [] b.model bound.model := filled_bindArguments hs _ _ b
  let placed := (placeChildren s id statement.members bound).2
  have hplaced :
      Filled s id (statement.members.flatMap Member.answers) bound.model placed.model := by
    refine (filled_placeChildren hanswers (harguments.size ▸ hid) ?_).1
    exact problems_eq_nil_of_modest (x := do
      setLocation s origin id statement.command.line
      offerComments s none id statement.comments statement.note statement.command.line) hproblems
  have hlocation : Filled s id [] placed.model
      (setLocation s origin id statement.command.line placed).2.model :=
    filled_setLocation origin statement.command.line placed
  have hall := (harguments.append hplaced).append hlocation
  rw [nil_append, append_nil] at hall
  show Filled s id _ b.model (offerComments s none id statement.comments statement.note
    statement.command.line (setLocation s origin id statement.command.line placed).2).2.model
  rw [model_offerComments_none]
  exact hall

theorem receives_of_furnish (c : ClassId) (statement : Statement ElementId)
    (hmember : member ∈ statement.members) (hhands : member.Hands role child)
    (hanswers : ∀ member ∈ statement.members, ∀ c ∈ member.answers, c < b.model.size)
    (hproblems : (conclude s {} none c statement b).problems = []) :
    ∃ f, s.Receives c (b.model.classOf child) role f ∧
      (conclude s {} none c statement b).model.container child = some (b.model.size, f) := by
  have hchild : child < b.model.size := hanswers member hmember child hhands.mem_answers
  have hlt : b.model.size < (begin s c statement b).model.size :=
    size_begin c statement b ▸ Nat.lt_succ_self _
  have hplaced : (placeChildren s b.model.size statement.members
      (begin s c statement b)).2.problems = [] :=
    problems_eq_nil_of_modest (x := do
      setLocation s {} b.model.size statement.command.line
      offerComments s none b.model.size statement.comments statement.note statement.command.line)
      hproblems
  obtain ⟨hfilled, hplaced⟩ := filled_placeChildren hanswers hlt hplaced
  obtain ⟨f, hreceives, hcontainer⟩ := hplaced member hmember role child hhands
  rw [hfilled.classOf, hfilled.classOf, classOf_begin, if_pos rfl, classOf_begin,
    if_neg (Nat.ne_of_lt hchild)] at hreceives
  exact ⟨f, hreceives, (tended_furnish c statement b).container _ _ hcontainer⟩

end CommandText
