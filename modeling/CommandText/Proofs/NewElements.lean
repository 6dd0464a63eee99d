import CommandText.Proofs.ArgumentTokens
import CommandText.Proofs.SoundRuns

/-!
# The element of a statement

At the end of a statement an element is created. Its arguments are what the statement says, whatever
stands around it, and the elements that were there before keep everything they have; they may be
put into the new one, and once they are contained somewhere they stay there.
-/

namespace CommandText

variable {child id : ElementId} {f : FeatureId} {member : Member ElementId} {role : Option Token}
variable (c : ClassId) (statement : Statement ElementId)

/-! ### Arguments on another line -/

namespace Schema

variable (s : Schema) (c : ClassId) (line : Nat)

theorem storeValues_onLine (f : FeatureId) (value : ArgumentValue) :
    s.storeValues f (value.onLine line).tokens = s.storeValues f value.tokens := by
  have htokens : (value.onLine line).tokens = value.tokens.map (Token.onLine line) := by
    cases value <;> rfl
  funext slots
  rw [htokens, storeValues, storeValues, List.length_map, List.foldl_map]
  rfl

theorem argumentSlots_onLine (position : Nat) (given : List FeatureId) (arguments : List Argument) :
    s.argumentSlots c position given (arguments.map (Argument.onLine line)) =
      s.argumentSlots c position given arguments := by
  induction arguments generalizing position given with
  | nil => rfl
  | cons a rest ih =>
    have haddress : s.address c position (a.onLine line).label = s.address c position a.label := by
      rw [Argument.onLine]
      cases a.label <;> rfl
    have hlabel : (a.onLine line).label.isNone = a.label.isNone := by
      rw [Argument.onLine]
      cases a.label <;> rfl
    have hvalue : (a.onLine line).value = a.value.onLine line := rfl
    funext slots
    simp only [List.map_cons, argumentSlots, haddress, hlabel, hvalue, ih, storeValues_onLine]

end Schema

/-! ### Elements later on -/

namespace Model

variable {s : Schema} {m m₁ m₂ m₃ : Model}

/-- The elements of a model as they are seen later: their values stay, and so does the place of
those that are contained. -/
structure Later (m m' : Model) : Prop where
  size : m.size ≤ m'.size
  classOf : ∀ j < m.size, m'.classOf j = m.classOf j
  lineOf : ∀ j < m.size, (m'.elementAt j).line = (m.elementAt j).line
  values : ∀ j < m.size, ∀ f, m'.values j f = m.values j f
  container : ∀ j p, m.container j = some p → m'.container j = some p

theorem Later.of_elementAt (hsize : m.size ≤ m₁.size)
    (h : ∀ j < m.size, m₁.elementAt j = m.elementAt j) : Later m m₁ where
  size := hsize
  classOf j hj := by rw [Model.classOf, h j hj, Model.classOf]
  lineOf j hj := by rw [h j hj]
  values j hj f := by rw [Model.values, h j hj, Model.values]
  container j p hp := by
    rw [Model.container, h j (m.lt_size_of_container hp)]
    exact hp

/-! ### Work that leaves the arguments alone -/

/-- Work on an element that leaves its arguments alone, the number of its line apart. -/
structure Tended (s : Schema) (id : ElementId) (m m' : Model) : Prop where
  size : m'.size = m.size
  classOf : ∀ j, m'.classOf j = m.classOf j
  lineOf : ∀ j, (m'.elementAt j).line = (m.elementAt j).line
  others : ∀ j ≠ id, ∀ f, m'.values j f = m.values j f
  arguments : ∀ f, (s.featureAt f).isContainment = false →
    s.lineAttribute ≠ some (s.featureAt f).name → m'.values id f = m.values id f
  container : ∀ j p, m.container j = some p → m'.container j = some p
  own : m'.container id = m.container id

theorem Tended.refl (m : Model) : Tended s id m m :=
  ⟨rfl, fun _ => rfl, fun _ => rfl, fun _ _ _ => rfl, fun _ _ _ => rfl, fun _ _ h => h, rfl⟩

theorem Tended.trans (h : Tended s id m₁ m₂) (h' : Tended s id m₂ m₃) : Tended s id m₁ m₃ where
  size := h'.size.trans h.size
  classOf j := (h'.classOf j).trans (h.classOf j)
  lineOf j := (h'.lineOf j).trans (h.lineOf j)
  others j hj f := (h'.others j hj f).trans (h.others j hj f)
  arguments f hf hline := (h'.arguments f hf hline).trans (h.arguments f hf hline)
  container j p hp := h'.container j p (h.container j p hp)
  own := h'.own.trans h.own

theorem Tended.of_takesAll {children : ElementId → Prop} (h : TakesAll s id children m m₁)
    (hchildren : ∀ child, children child → child < id) (hid : id < m.size) :
    Tended s id m m₁ := by
  induction h with
  | refl => exact .refl m
  | tail _ hstep ih =>
    refine ih.trans ?_
    obtain ⟨f, child, hchild, hf, -, -, hattach⟩ := hstep
    have hid := ih.size ▸ hid
    have hattached := attached_of_attach? _ hattach hid
      (Nat.lt_trans (hchildren child hchild) hid)
    obtain ⟨hfree, hne, -⟩ := (attach?_eq_some_iff _).mp hattach
    refine ⟨hattached.size, hattached.classOf, hattached.lineOf, fun j hj g => ?_,
      fun g hg _ => ?_, fun j p hp => ?_, ?_⟩
    · rw [hattached.values, if_neg fun h => hj h.1]
    · rw [hattached.values, if_neg]
      rintro ⟨-, rfl⟩
      obtain ⟨target, hkind⟩ := (s.mem_containments_iff.mp hf).2
      simp [Feature.isContainment, hkind] at hg
    · rw [hattached.container, if_neg, hp]
      rintro rfl
      rw [hfree] at hp
      cases hp
    · rw [hattached.container, if_neg hne]

theorem Tended.setValue {f : FeatureId} (hf : s.lineAttribute = some (s.featureAt f).name)
    (v : Value) : Tended s id m (m.setValue id f v) := by
  rw [setValue_eq_fill]
  refine ⟨m.size_fill id _, m.classOf_fill id _, m.lineOf_fill id _, fun j hj g => ?_,
    fun g _ hline => ?_, fun j p hp => ?_, m.container_fill id _ id⟩
  · rw [values_fill, if_neg fun h => hj h.1]
  · have hg : g ≠ f := by
      rintro rfl
      exact hline hf
    rw [values_fill]
    split
    · rw [Slots.get_put_of_ne hg]
      rfl
    · rfl
  · rw [container_fill]
    exact hp

end Model

/-! ### The end of a statement -/

open Model BuildM

variable {τ : Type} {s : Schema} {b : Building τ}

theorem setLocation_eq (line : Nat) (b : Building τ) : (setLocation s {} id line b).2 =
    (setLocationPart s id s.lineAttribute (some (.integer line)) b).2 := by
  have hnone (name : Option String) (b : Building τ) :
      (setLocationPart s id name none b).2 = b := by
    cases name <;> rfl
  exact (hnone s.fragmentAttribute _).trans (hnone s.fileAttribute _)

theorem tended_setLocation (line : Nat) (b : Building τ) :
    Tended s id b.model (setLocation s {} id line b).2.model := by
  rw [setLocation_eq]
  rcases setLocationPart_cases s id s.lineAttribute (isLocation_line line) b with
    h | ⟨f, v, hname, -, -, -, h⟩
  · rw [h]
    exact .refl _
  · rw [h]
    exact .setValue hname v

/-- A model with the element of a statement, which is the last one. -/
structure Model.Added (s : Schema) (c : ClassId) (w : Token) (args : List Argument)
    (m m' : Model) : Prop where
  later : Later m m'
  size : m'.size = m.size + 1
  classOf : m'.classOf m.size = c
  lineOf : (m'.elementAt m.size).line = some w.line
  values : ∀ f, (s.featureAt f).isContainment = false →
    s.lineAttribute ≠ some (s.featureAt f).name →
    m'.values m.size f = (s.argumentSlots c 0 [] args []).get f
  container : m'.container m.size = none

/-- The state in which the children of a statement are placed: its element is created, and its
arguments are bound. -/
def begin (s : Schema) (c : ClassId) (statement : Statement ElementId) (b : Building τ) :
    Building τ :=
  (bindArguments s b.model.size statement.arguments statement.command.line
    (BuildM.create c statement.command.line statement.isRoot b).2).2

theorem model_begin (b : Building τ) :
    (begin s c statement b).model = (b.model.create c (some statement.command.line)).fill
      b.model.size (s.argumentSlots c 0 [] statement.arguments) := by
  show (bindRest s b.model.size ((b.model.create c _).classOf b.model.size) _ 0 [] _ _).2.model = _
  rw [model_bindRest, classOf_create, if_pos rfl]
  rfl

theorem size_begin (b : Building τ) : (begin s c statement b).model.size = b.model.size + 1 := by
  rw [model_begin, size_fill, size_create]

theorem classOf_begin (b : Building τ) (j : ElementId) :
    (begin s c statement b).model.classOf j =
      if j = b.model.size then c else b.model.classOf j := by
  rw [model_begin, classOf_fill, classOf_create]

theorem container_begin (b : Building τ) (j : ElementId) :
    (begin s c statement b).model.container j = b.model.container j := by
  rw [model_begin, container_fill, container_create]

theorem values_begin (b : Building τ) (j : ElementId) (f : FeatureId) :
    (begin s c statement b).model.values j f = if j = b.model.size then
      (s.argumentSlots c 0 [] statement.arguments []).get f else b.model.values j f := by
  have hlt : b.model.size < (b.model.create c (some statement.command.line)).size :=
    size_create b.model c _ ▸ Nat.lt_succ_self _
  simp only [model_begin, values_fill, hlt, and_true, values_create, elementAt_create, if_true]

/-- Arguments leave containments alone. -/
theorem containment_begin (hs : s.Accepted) (hf : f ∈ s.containments c) (b : Building τ) :
    (begin s c statement b).model.values b.model.size f = [] := by
  have hargument : f ∉ s.arguments c := by
    intro hargument
    have hkind := (List.mem_filter.mp hf).2
    rw [(s.mem_arguments_iff.mp hargument).2] at hkind
    cases hkind
  rw [values_begin, if_pos rfl, hs.get_argumentSlots hargument]
  rfl

theorem tended_furnish (b : Building τ) : Tended s b.model.size
      (placeChildren s b.model.size statement.members (begin s c statement b)).2.model
      (conclude s {} none c statement b).model := by
  show Tended s _ _ (offerComments s none b.model.size _ _ _ (setLocation s {} b.model.size _
    (placeChildren s b.model.size _ (begin s c statement b)).2).2).2.model
  rw [model_offerComments_none]
  exact tended_setLocation statement.command.line _

theorem added_furnish (b : Building τ)
    (hmembers : ∀ member ∈ statement.members, ∀ child ∈ member.answers, child < b.model.size) :
    Added s c statement.command statement.arguments b.model
      (conclude s {} none c statement b).model := by
  have hlt : b.model.size < (begin s c statement b).model.size :=
    size_begin c statement b ▸ Nat.lt_succ_self _
  have htended := (Tended.of_takesAll (takes_placeChildren hmembers) (fun _ h => h) hlt).trans
    (tended_furnish c statement b)
  have hne {j : ElementId} (hj : j < b.model.size) : j ≠ b.model.size := Nat.ne_of_lt hj
  refine ⟨⟨?_, fun j hj => ?_, fun j hj => ?_, fun j hj f => ?_, fun j p hp => ?_⟩, ?_, ?_, ?_,
    fun f hf hline => ?_, ?_⟩
  · rw [htended.size, size_begin]
    exact Nat.le_succ _
  · rw [htended.classOf, classOf_begin, if_neg (hne hj)]
  · rw [htended.lineOf, model_begin, lineOf_fill, elementAt_create, if_neg (hne hj)]
  · rw [htended.others j (hne hj), values_begin, if_neg (hne hj)]
  · refine htended.container j p ?_
    rw [container_begin]
    exact hp
  · rw [htended.size, size_begin]
  · rw [htended.classOf, classOf_begin, if_pos rfl]
  · rw [htended.lineOf, model_begin, lineOf_fill, elementAt_create, if_pos rfl]
  · rw [htended.arguments f hf hline, values_begin, if_pos rfl]
  · rw [htended.own, container_begin, container_eq_none _ (Nat.le_refl _)]

/-! ### Placing children -/

/-- An element of one class takes one of another in a feature that the role leads to. -/
structure Schema.Receives (s : Schema) (parent child : ClassId) (role : Option Token)
    (f : FeatureId) : Prop where
  mem : f ∈ s.containments parent
  conforms : (s.featureAt f).target?.any (s.conforms child) = true
  addressed : match role with
    | none => s.containmentsAccepting parent child = [f] ∧ (s.featureAt f).labeled = false
    | some label => s.featureNamed? parent label.text = some f

/-- A member of a block hands an element on in a role. -/
inductive Member.Hands : Member ElementId → Option Token → ElementId → Prop
  | child (id : ElementId) : Hands (.child id) none id
  | role (label : Token) {children : List ElementId} (list : Bool) {id : ElementId}
      (h : id ∈ children) : Hands (.role label children list) (some label) id

theorem problem_ne_nil (fault : Fault) (line : Nat) (b : Building τ) :
    (problem fault line b).2.problems ≠ [] := by
  simp [problem, modify, modifyGet, MonadStateOf.modifyGet, StateT.modifyGet, pure]

theorem problems_eq_nil_of_modest {α : Type} {x : BuildM τ α} [hx : Modest x]
    (h : (x b).2.problems = []) : b.problems = [] :=
  List.prefix_nil.mp (h ▸ hx.problems b)

/-! ### A single child -/

theorem container_attachInRole (hf : f ∈ s.containments (b.model.classOf id))
    (htarget : (s.featureAt f).target?.any (s.conforms (b.model.classOf child)) = true)
    (hroom : b.model.values id f = []) (hfree : b.model.container child = none)
    (hchild : child < id) (hid : id < b.model.size) :
    (attachInRole s id f child b).2.model.container child = some (id, f) := by
  rcases attachInRole_cases hf id child b with
    ⟨_, _, -, hno | hno, -⟩ | ⟨-, ⟨-, hset, -⟩ | ⟨-, m', hm', h⟩⟩
  · rw [htarget] at hno
    cases hno
  · rw [b.model.attach?_eq_some_iff.mpr ⟨hfree, Nat.ne_of_gt hchild, rfl⟩] at hno
    cases hno
  · exact absurd hroom hset
  · rw [h, (b.model.attached_of_attach? hm' hid (Nat.lt_trans hchild hid)).container, if_pos rfl]

theorem container_placeChildren (hhands : member.Hands role child)
    (hanswers : member.answers = [child])
    (hreceives : s.Receives (b.model.classOf id) (b.model.classOf child) role f)
    (hroom : b.model.values id f = []) (hfree : b.model.container child = none)
    (hchild : child < id) (hid : id < b.model.size) :
    (placeChildren s id [member] b).2.model.container child = some (id, f) := by
  have hattach := container_attachInRole hreceives.mem hreceives.conforms hroom hfree hchild hid
  have happly : placeChildren s id [member] b = attachInRole s id f child b := by
    cases hhands with
    | child =>
      obtain ⟨hf, hlabeled⟩ := hreceives.addressed
      show attachUnlabeled s id child b = _
      rw [attachUnlabeled, getModel_bind_apply]
      simp only [hf, hlabeled, Bool.false_eq_true, if_false]
    | role label list hmem =>
      have hf : s.featureNamed? (b.model.classOf id) label.text = some f := hreceives.addressed
      have hkind : (s.featureAt f).isContainment = true := (List.mem_filter.mp hreceives.mem).2
      obtain rfl := hanswers
      show placeMember s id (.role label [child] list) b = _
      rw [placeMember, getModel_bind_apply]
      simp only [hf, hkind, if_true]
      rfl
  rw [happly]
  exact hattach

theorem container_furnish (hs : s.Accepted) (c : ClassId) (statement : Statement ElementId)
    (hmembers : statement.members = [member]) (hhands : member.Hands role child)
    (hanswers : member.answers = [child]) (hchild : child < b.model.size)
    (hfree : b.model.container child = none)
    (hreceives : s.Receives c (b.model.classOf child) role f) :
    (conclude s {} none c statement b).model.container child = some (b.model.size, f) := by
  refine (tended_furnish c statement b).container _ _ ?_
  rw [hmembers]
  refine container_placeChildren hhands hanswers ?_ ?_ ?_ hchild ?_
  · rw [classOf_begin, if_pos rfl, classOf_begin, if_neg (Nat.ne_of_lt hchild)]
    exact hreceives
  · exact containment_begin c statement hs hreceives.mem b
  · rw [container_begin]
    exact hfree
  · exact size_begin c statement b ▸ Nat.lt_succ_self _

end CommandText
