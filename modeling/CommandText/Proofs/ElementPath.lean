import CommandText.Proofs.OpenReading
import CommandText.Proofs.PlacedChildren

/-!
# The elements on a way down

A way down through entries is a list of commands, each in the block of the one before. Where a text
is turned into elements without a problem, each of these commands has its element, contained in the
one of the command before. What those elements are depends on the commands of the way alone: a text
that holds nothing but a way down gives elements of the same classes with the same arguments.
-/

namespace CommandText

open Entry List Model BuildM CommentKeeper

variable {τ : Type} {s : Schema}
variable {members : List (Member ElementId)} {entries : List Entry} {stages stages' : List Stage}
  {enclosing : Option (Option ClassId)} {w : Token} {c : ClassId}

/-! ### Elements of commands -/

namespace Model

variable {m m' : Model} {outer : Option ClassId} {stage : Stage} {id : ElementId}
variable {ids : List ElementId}

/-- An element is the one of a command that stands in an element of some class, or on root level. -/
structure Made (s : Schema) (m : Model) (outer : Option ClassId) (stage : Stage) (id : ElementId) :
    Prop where
  lt_size : id < m.size
  found : s.classForCommand? stage.word.text outer = some (m.classOf id)
  concrete : (s.classAt (m.classOf id)).isAbstract = false
  line : (m.elementAt id).line = some stage.word.line
  values : ∀ f, (s.featureAt f).isContainment = false →
    s.lineAttribute ≠ some (s.featureAt f).name →
    m.values id f = (s.argumentSlots (m.classOf id) 0 [] stage.arguments []).get f

/-- An element contains another one in a feature that the role of its command leads to. -/
def Contains (s : Schema) (m : Model) (id : ElementId) (stage : Stage) (child : ElementId) : Prop :=
  ∃ f, s.Receives (m.classOf id) (m.classOf child) stage.role f ∧ m.container child = some (id, f)

/-- The elements of commands, the outermost first, each of which contains the next one. -/
inductive Descends (s : Schema) (m : Model) : Option ClassId → List Stage → List ElementId → Prop
  | nil {outer : Option ClassId} : Descends s m outer [] []
  | cons {outer : Option ClassId} {stage : Stage} {id : ElementId} {stages : List Stage}
      {ids : List ElementId} (made : m.Made s outer stage id)
      (contains : ∀ next ∈ stages.head?, ∀ child ∈ ids.head?, m.Contains s id next child)
      (rest : Descends s m (some (m.classOf id)) stages ids) :
      Descends s m outer (stage :: stages) (id :: ids)

theorem Made.later (h : m.Made s outer stage id) (hlater : Later m m') :
    m'.Made s outer stage id := by
  have hclass := hlater.classOf id h.lt_size
  refine ⟨Nat.lt_of_lt_of_le h.lt_size hlater.size, ?_, ?_, ?_, fun f hf hline => ?_⟩
  · rw [hclass]
    exact h.found
  · rw [hclass]
    exact h.concrete
  · rw [hlater.lineOf id h.lt_size]
    exact h.line
  · rw [hlater.values id h.lt_size, hclass]
    exact h.values f hf hline

theorem Descends.lt_size (h : m.Descends s outer stages ids) : ∀ id ∈ ids, id < m.size := by
  induction h with
  | nil => simp
  | cons made _ _ ih => exact forall_mem_cons.mpr ⟨made.lt_size, ih⟩

theorem Descends.later (h : m.Descends s outer stages ids) (hlater : Later m m') :
    m'.Descends s outer stages ids := by
  induction h with
  | nil => exact .nil
  | cons made contains rest ih =>
    refine .cons (made.later hlater) (fun next hnext child hchild => ?_) ?_
    · obtain ⟨f, hreceives, hcontainer⟩ := contains next hnext child hchild
      refine ⟨f, ?_, hlater.container _ _ hcontainer⟩
      rw [hlater.classOf _ made.lt_size,
        hlater.classOf _ (rest.lt_size _ (mem_of_mem_head? hchild))]
      exact hreceives
    · rw [hlater.classOf _ made.lt_size]
      exact ih

/-- An element of another model has the same class and the same arguments, the number of its line
apart. -/
structure Mirrors (s : Schema) (m m' : Model) (id id' : ElementId) : Prop where
  classOf : m'.classOf id' = m.classOf id
  values : ∀ f, (s.featureAt f).isContainment = false →
    s.lineAttribute ≠ some (s.featureAt f).name → m'.values id' f = m.values id f

theorem Made.classOf_eq (h : m.Made s outer stage id) {stage' : Stage} {id' : ElementId}
    (h' : m'.Made s outer stage' id') (hkin : stage.Kin stage') :
    m'.classOf id' = m.classOf id := by
  have hfound := h'.found
  rw [hkin.word, h.found] at hfound
  exact (Option.some.inj hfound).symm

theorem Made.mirrors (h : m.Made s outer stage id) {stage' : Stage} {id' : ElementId}
    (h' : m'.Made s outer stage' id') (halike : stage.Alike stage') : m.Mirrors s m' id id' := by
  have hclass := h.classOf_eq h' halike.toKin
  refine ⟨hclass, fun f hf hline => ?_⟩
  obtain ⟨line, harguments⟩ := halike.arguments
  rw [h'.values f hf hline, hclass, harguments, s.argumentSlots_onLine, h.values f hf hline]

/-- What holds of elements of the same class that are made of matching stages. -/
theorem Descends.forall₂ {R : Stage → Stage → Prop} {S : ElementId → ElementId → Prop}
    (hmade : ∀ {outer stage stage' id id'}, m.Made s outer stage id → m'.Made s outer stage' id' →
      R stage stage' → m'.classOf id' = m.classOf id ∧ S id id')
    (h : m.Descends s outer stages ids) {ids' : List ElementId}
    (h' : m'.Descends s outer stages' ids') (hR : List.Forall₂ R stages stages') :
    List.Forall₂ S ids ids' := by
  induction h generalizing stages' ids' with
  | nil =>
    obtain rfl := forall₂_nil_left_iff.mp hR
    cases h'
    exact .nil
  | cons made _ _ ih =>
    obtain ⟨stage', stages', hstage, hrest, rfl⟩ := forall₂_cons_left_iff.mp hR
    cases h' with
    | cons made' _ rest' =>
      obtain ⟨hclass, hS⟩ := hmade made made' hstage
      exact .cons hS (ih (hclass ▸ rest') hrest)

theorem Added.descends {w : Token} {args : List Argument} (role : Option Token)
    (h : Added s c w args m m') (hfound : s.classForCommand? w.text outer = some c)
    (hconcrete : (s.classAt c).isAbstract = false) (hrest : m.Descends s (some c) stages ids)
    (hcontains : ∀ next ∈ stages.head?, ∀ child ∈ ids.head?, ∃ f,
      s.Receives c (m.classOf child) next.role f ∧ m'.container child = some (m.size, f)) :
    m'.Descends s outer (⟨role, w, args⟩ :: stages) (m.size :: ids) := by
  have hmade : m'.Made s outer ⟨role, w, args⟩ m.size := by
    refine ⟨h.size ▸ Nat.lt_succ_self _, ?_, ?_, h.lineOf, fun f hf hline => ?_⟩
    · rw [h.classOf]
      exact hfound
    · rw [h.classOf]
      exact hconcrete
    · rw [h.classOf]
      exact h.values f hf hline
  refine .cons hmade (fun next hnext child hchild => ?_) ?_
  · obtain ⟨f, hreceives, hcontainer⟩ := hcontains next hnext child hchild
    refine ⟨f, ?_, hcontainer⟩
    rw [h.classOf, h.later.classOf child (hrest.lt_size child (mem_of_mem_head? hchild))]
    exact hreceives
  · rw [h.classOf]
    exact hrest.later h.later

end Model

/-- A block that stands in a role hands an element on, which stands in a role there. -/
inductive Member.Carries : Option Token → Member ElementId → Option Token → ElementId → Prop
  | hands {member : Member ElementId} {role : Option Token} {id : ElementId}
      (h : member.Hands role id) : Carries none member role id
  | child (l : Token) (id : ElementId) : Carries (some l) (.child id) (some l) id

theorem Member.carries_child (role : Option Token) (id : ElementId) :
    Member.Carries role (.child id) role id := by
  cases role with
  | none => exact .hands (.child id)
  | some l => exact .child l id

/-! ### Runs over entries -/

variable {origin : Origin} {b b' : Building τ}

theorem problems_leave (statement : Statement ElementId) (scope : Option ClassId) (b : Building τ) :
    b.problems <+: ((builder s origin none).leave statement scope b).2.problems := by
  rcases leave_cases s origin none statement scope b with
    ⟨fault, -, heq⟩ | ⟨c, -, -, heq⟩ <;> rw [heq]
  · exact prefix_append _ _
  · have hmodest : Modest (furnish s origin none statement b.model.size : BuildM τ Unit) :=
      inferInstance
    exact hmodest.problems (BuildM.create c statement.command.line statement.isRoot b).2

theorem problems_eq_nil_of_visitAll
    (h : (visitAll (builder s origin none) enclosing entries b).2.problems = []) :
    b.problems = [] := by
  refine prefix_nil.mp (h ▸ ?_)
  refine Visitor.Keeps.visitAll (v := builder s origin none) (P := fun _ b _ b' =>
    b.problems <+: b'.problems) ⟨?_, ?_, ?_, ?_, ?_, ?_⟩ enclosing entries b
  · exact fun _ _ => prefix_refl _
  · exact fun h h' => h.trans h'
  · exact fun _ _ _ => prefix_refl _
  · exact fun _ _ h => h
  · exact fun h => h
  · exact fun _ _ _ h => h.trans (problems_leave _ _ _)

theorem concrete_of_leave {statement : Statement ElementId} {scope : Option ClassId}
    (h : ((builder s origin none).leave statement scope b).2.problems = []) :
    ∃ c, scope = some c ∧ (s.classAt c).isAbstract = false := by
  rcases leave_cases s origin none statement scope b with ⟨fault, -, heq⟩ | ⟨c, hscope, hc, -⟩
  · rw [heq] at h
    exact absurd h (problem_ne_nil _ _ b)
  · exact ⟨c, hscope, hc⟩

/-- A statement as it is seen at its end. -/
def closed (w : Token) (args : List Argument) (closing : Closing)
    (enclosing : Option (Option ClassId)) (members : List (Member ElementId)) :
    Statement ElementId :=
  ⟨w, args, members, closing.comments, closing.note, enclosing.isNone⟩

theorem visit_of_concrete (hfound : s.classForCommand? w.text enclosing.join = some c)
    (hc : (s.classAt c).isAbstract = false) (args : List Argument) (body : List Entry)
    (closing : Closing) (b : Building τ)
    (hbody : visitAll (builder s origin none) (some (some c)) body b = (members, b')) :
    (statement w args body (some closing)).visit (builder s origin none) enclosing b =
      ([.child b'.model.size],
        conclude s origin none c (closed w args closing enclosing members) b') := by
  have hvisit : (statement w args body (some closing)).visit (builder s origin none) enclosing
      b =
      let scope := s.classForCommand? w.text enclosing.join
      let r := visitAll (builder s origin none) (some scope) body b
      let answer := (builder s origin none).leave (closed w args closing enclosing r.1) scope r.2
      (answer.1.toList.map .child, answer.2) := rfl
  rw [hvisit]
  simp only [hfound, hbody]
  rw [leave_of_concrete origin none _ hc]
  rfl

theorem concrete_of_visit {args : List Argument} {body : List Entry} {closing : Closing}
    (h : ((statement w args body (some closing)).visit (builder s origin none) enclosing
      b).2.problems = []) :
    ∃ c, s.classForCommand? w.text enclosing.join = some c ∧ (s.classAt c).isAbstract = false ∧
      (visitAll (builder s origin none) (some (some c)) body b).2.problems = [] := by
  have h : ((builder s origin none).leave (closed w args closing enclosing
      (visitAll (builder s origin none) (some (s.classForCommand? w.text enclosing.join)) body
        b).1) (s.classForCommand? w.text enclosing.join)
      (visitAll (builder s origin none) (some (s.classForCommand? w.text enclosing.join)) body
        b).2).2.problems = [] := h
  obtain ⟨c, hfound, hc⟩ := concrete_of_leave h
  refine ⟨c, hfound, hc, ?_⟩
  rw [hfound] at h
  exact prefix_nil.mp (h ▸ problems_leave _ _ _)

theorem problems_eq_nil_of_instantiateWith {keeper : Option (CommentKeeper τ)} {state : τ}
    {m : Model} {text : List Char}
    (h : (instantiateWith s origin keeper state m text).problems = []) :
    (visitAll (builder s origin keeper) none (parse (tokenize s.pattern text)).entries
        { model := m, keeper := state }).2.problems = [] ∧
      (parse (tokenize s.pattern text)).problems = [] := by
  have hsort := map_eq_nil_iff.mp h
  rw [sortProblems] at hsort
  have hperm := mergeSort_perm ((visitAll (builder s origin keeper) none
    (parse (tokenize s.pattern text)).entries { model := m, keeper := state }).2.problems ++
      (parse (tokenize s.pattern text)).problems) fun p q => p.line ≤ q.line
  have hnil := nil_perm.mp (hsort ▸ hperm)
  exact append_eq_nil_iff.mp hnil

/-! ### A way down without a problem -/

/-- A run over entries in a role has made the elements of a way down. Nothing contains the first of
them yet, and it is handed on. -/
def Finds (s : Schema) (role : Option Token) (outer : Option ClassId) (stages : List Stage)
    (members : List (Member ElementId)) (m : Model) : Prop :=
  ∃ ids, m.Descends s outer stages ids ∧ (∀ id ∈ ids.head?, m.container id = none) ∧
    ∀ stage ∈ stages.head?, ∀ id ∈ ids.head?, ∃ member ∈ members, member.Carries role stage.role id

theorem Finds.append {role : Option Token} {outer : Option ClassId}
    {before after : List (Member ElementId)} {m m' : Model}
    (h : Finds s role outer stages members m) (hsize : m.size ≤ m'.size)
    (hsame : ∀ j < m.size, m'.elementAt j = m.elementAt j) :
    Finds s role outer stages (before ++ (members ++ after)) m' := by
  obtain ⟨ids, hdescends, hfree, hhanded⟩ := h
  refine ⟨ids, hdescends.later (.of_elementAt hsize hsame), fun id hid => ?_,
    fun stage hstage id hid => ?_⟩
  · rw [Model.container, hsame id (hdescends.lt_size id (mem_of_mem_head? hid))]
    exact hfree id hid
  · obtain ⟨member, hmember, hcarries⟩ := hhanded stage hstage id hid
    exact ⟨member, by simp [hmember], hcarries⟩

theorem finds_visitAll (hs : s.Accepted) {role : Option Token} {entry : Entry}
    (h : ∀ b : Building τ, (entry.visit (builder s {} none) enclosing b).2.problems = [] →
      Finds s role enclosing.join stages (entry.visit (builder s {} none) enclosing b).1
        (entry.visit (builder s {} none) enclosing b).2.model)
    (before after : List Entry)
    (hproblems :
      (visitAll (builder s {} none) enclosing (before ++ entry :: after) b).2.problems = []) :
    Finds s role enclosing.join stages
      (visitAll (builder s {} none) enclosing (before ++ entry :: after) b).1
      (visitAll (builder s {} none) enclosing (before ++ entry :: after) b).2.model := by
  rw [visitAll_append] at hproblems ⊢
  have hrun := run_builder hs {} tame_of_mem_none enclosing after
    (entry.visit (builder s {} none) enclosing
      (visitAll (builder s {} none) enclosing before b).2).2
  exact (h _ (problems_eq_nil_of_visitAll hproblems)).append hrun.size_le hrun.before

theorem Entry.Path.finds (hs : s.Accepted) {role : Option Token}
    (h : Entry.Path role entries stages) (enclosing : Option (Option ClassId))
    (hproblems : (visitAll (builder s {} none) enclosing entries b).2.problems = []) :
    Finds s role enclosing.join stages
      (visitAll (builder s {} none) enclosing entries b).1
      (visitAll (builder s {} none) enclosing entries b).2.model := by
  induction h generalizing enclosing b with
  | here => exact ⟨[], .nil, by simp, by simp⟩
  | @statement role before after w args body closing stages h ih =>
    refine finds_visitAll hs (fun b hproblems => ?_) before after hproblems
    obtain ⟨c, hfound, hc, hbody⟩ := concrete_of_visit hproblems
    obtain ⟨ids, hdescends, -, hhanded⟩ := ih (some (some c)) hbody
    have hrun := run_builder hs {} tame_of_mem_none (some (some c)) body b
    rcases hr : visitAll (builder s {} none) (some (some c)) body b with ⟨members, b'⟩
    rw [visit_of_concrete hfound hc args body closing b hr] at hproblems ⊢
    rw [hr] at hdescends hhanded hrun
    have hanswers : ∀ member ∈ members, ∀ child ∈ member.answers, child < b'.model.size :=
      fun member hmember child hchild => (hrun.answers member hmember child hchild).2
    let statement := closed w args closing enclosing members
    have hadded : Added s c w args b'.model (conclude s {} none c statement b').model :=
      added_furnish c statement b' hanswers
    refine ⟨b'.model.size :: ids, hadded.descends role hfound hc hdescends ?_, ?_, ?_⟩
    · intro next hnext child hchild
      obtain ⟨member, hmember, ⟨hhands⟩⟩ := hhanded next hnext child hchild
      exact receives_of_furnish c statement hmember hhands hanswers hproblems
    · simp only [head?_cons, Option.mem_some_iff, forall_eq']
      exact hadded.container
    · simp only [head?_cons, Option.mem_some_iff, forall_eq']
      exact ⟨_, mem_singleton_self _, Member.carries_child role _⟩
  | @role before after l list items stages h ih =>
    refine finds_visitAll hs (fun b hproblems => ?_) before after hproblems
    obtain ⟨ids, hdescends, hfree, hhanded⟩ := ih enclosing hproblems
    refine ⟨ids, hdescends, hfree, fun stage hstage id hid => ?_⟩
    obtain ⟨member, hmember, hcarries⟩ := hhanded stage hstage id hid
    refine ⟨_, mem_singleton_self _, ?_⟩
    generalize stage.role = stageRole at hcarries ⊢
    cases hcarries with
    | child => exact .hands (.role l list (mem_filterMap.mpr ⟨_, hmember, rfl⟩))

/-! ### The way down alone -/

theorem Schema.Receives.of_text {parent child : ClassId} {role role' : Option Token} {f : FeatureId}
    (h : s.Receives parent child role f) (hrole : role'.map Token.text = role.map Token.text) :
    s.Receives parent child role' f := by
  refine ⟨h.mem, h.conforms, ?_⟩
  have haddressed := h.addressed
  cases role with
  | none =>
    cases role' with
    | none => exact haddressed
    | some l' => cases hrole
  | some l =>
    cases role' with
    | none => cases hrole
    | some l' =>
      have htext : l'.text = l.text := Option.some.inj hrole
      show s.featureNamed? parent l'.text = some f
      rw [htext]
      exact haddressed

/-- Some elements made one after the other, the last one first. -/
def madeFrom (first : ElementId) (count : Nat) : List ElementId :=
  (List.range' first count).reverse

@[simp] theorem madeFrom_zero (first : ElementId) : madeFrom first 0 = [] := rfl

@[simp] theorem madeFrom_succ (first : ElementId) (count : Nat) :
    madeFrom first (count + 1) = (first + count) :: madeFrom first count := by
  rw [madeFrom, List.range'_1_concat, reverse_append]
  rfl

/-- A run over entries that hold nothing but a way down has made its elements and no others, the
innermost first. Nothing contains the last of them yet, and it is handed on alone. -/
structure Remakes (s : Schema) (role : Option Token) (enclosing : Option (Option ClassId))
    (stages : List Stage) (b : Building τ) (members : List (Member ElementId))
    (b' : Building τ) : Prop where
  size : b'.model.size = b.model.size + stages.length
  descends : b'.model.Descends s enclosing.join stages (madeFrom b.model.size stages.length)
  roots : enclosing = none →
    b'.roots = b.roots ++ (madeFrom b.model.size stages.length).head?.toList
  handed : ∀ stage ∈ stages.head?, ∀ id ∈ (madeFrom b.model.size stages.length).head?,
    ∃ member, members = [member] ∧ member.answers = [id] ∧ member.Carries role stage.role id ∧
      b'.model.container id = none

theorem Remakes.nil (role : Option Token) (enclosing : Option (Option ClassId)) (b : Building τ)
    (members : List (Member ElementId)) : Remakes s role enclosing [] b members b where
  size := rfl
  descends := .nil
  roots _ := by simp
  handed := by simp

theorem Remakes.role {l : Token} (h : Remakes s (some l) enclosing stages b members b')
    (list : Bool) :
    Remakes s none enclosing stages b [.role l (members.filterMap Member.child?) list] b' := by
  refine ⟨h.size, h.descends, h.roots, fun stage hstage id hid => ?_⟩
  obtain ⟨member, rfl, -, hcarries, hfree⟩ := h.handed stage hstage id hid
  generalize stage.role = stageRole at hcarries ⊢
  cases hcarries with
  | child => exact ⟨_, rfl, rfl, .hands (.role l list (mem_singleton_self id)), hfree⟩

theorem Remakes.statement (hs : s.Accepted)
    (hfound : s.classForCommand? w.text enclosing.join = some c)
    (hc : (s.classAt c).isAbstract = false) (h : Remakes s none (some (some c)) stages b members b')
    (hrun : Building.Run s (some (some c)) b members b')
    (hreceives : ∀ next ∈ stages.head?, ∀ child ∈ (madeFrom b.model.size stages.length).head?,
      ∃ f, s.Receives c (b'.model.classOf child) next.role f)
    (role : Option Token) (args : List Argument) (closing : Closing) :
    Remakes s role enclosing (⟨role, w, args⟩ :: stages) b [.child b'.model.size]
      (conclude s {} none c (closed w args closing enclosing members) b') := by
  let statement := closed w args closing enclosing members
  let last := conclude s {} none c statement b'
  have hadded : Added s c w args b'.model last.model :=
    added_furnish c statement b' fun member hmember child hchild =>
      (hrun.answers member hmember child hchild).2
  have hmade : madeFrom b.model.size (List.length (⟨role, w, args⟩ :: stages)) =
      b'.model.size :: madeFrom b.model.size stages.length := by
    rw [length_cons, madeFrom_succ, h.size]
  refine ⟨?_, ?_, fun henclosing => ?_, ?_⟩
  · rw [hadded.size, h.size, length_cons, Nat.add_assoc]
  · rw [hmade]
    refine hadded.descends role hfound hc h.descends fun next hnext child hchild => ?_
    obtain ⟨f, hf⟩ := hreceives next hnext child hchild
    obtain ⟨member, hmembers, hanswers, ⟨hhands⟩, hfree⟩ := h.handed next hnext child hchild
    exact ⟨f, hf, container_furnish hs c statement hmembers hhands hanswers
      (h.descends.lt_size child (mem_of_mem_head? hchild)) hfree hf⟩
  · subst henclosing
    have hmodest : Modest (furnish s {} none statement b'.model.size : BuildM τ Unit) :=
      inferInstance
    have hroots : last.roots = b'.roots ++ [b'.model.size] := hmodest.roots _
    rw [hmade, hroots, hrun.roots rfl]
    rfl
  · rw [hmade]
    simp only [head?_cons, Option.mem_some_iff, forall_eq']
    exact ⟨_, rfl, rfl, Member.carries_child role _, hadded.container⟩

theorem exists_receives {m m' : Model} {id : ElementId} {ids ids' : List ElementId}
    (h : m.Descends s (some (m.classOf id)) stages ids)
    (h' : m'.Descends s (some (m.classOf id)) stages' ids')
    (hkin : List.Forall₂ Stage.Kin stages stages')
    (hcontains : ∀ next ∈ stages.head?, ∀ child ∈ ids.head?, m.Contains s id next child) :
    ∀ next ∈ stages'.head?, ∀ child ∈ ids'.head?, ∃ f,
      s.Receives (m.classOf id) (m'.classOf child) next.role f := by
  intro next hnext child hchild
  cases h' with
  | nil => cases hnext
  | cons made' =>
    cases Option.mem_some_iff.mp hnext
    cases Option.mem_some_iff.mp hchild
    obtain ⟨stage, stages, hstage, -, rfl⟩ := forall₂_cons_right_iff.mp hkin
    cases h with
    | cons made =>
      obtain ⟨f, hreceives, -⟩ := hcontains _ rfl _ rfl
      exact ⟨f, made.classOf_eq made' hstage ▸ hreceives.of_text hstage.role⟩

theorem Thin.remakes (hs : s.Accepted) {role : Option Token} (h : Thin role entries stages')
    (enclosing : Option (Option ClassId)) {m : Model} {ids : List ElementId}
    (hdescends : m.Descends s enclosing.join stages ids)
    (hkin : List.Forall₂ Stage.Kin stages stages') (b : Building τ) :
    Remakes s role enclosing stages' b
      (visitAll (builder s {} none) enclosing entries b).1
      (visitAll (builder s {} none) enclosing entries b).2 := by
  induction h generalizing enclosing stages ids b with
  | here => exact .nil _ _ _ _
  | label l => exact .nil _ _ _ _
  | @statement role w args body closing stages' h ih =>
    obtain ⟨stage, stages, hstage, hrest, rfl⟩ := forall₂_cons_right_iff.mp hkin
    cases hdescends with
    | @cons _ _ id _ ids made contains rest =>
    have hfound : s.classForCommand? w.text enclosing.join = some (m.classOf id) :=
      hstage.word ▸ made.found
    have hbody := ih (some (some (m.classOf id))) rest hrest b
    have hrun := run_builder hs {} tame_of_mem_none (some (some (m.classOf id))) body b
    rcases hr : visitAll (builder s {} none) (some (some (m.classOf id))) body b with
      ⟨members, b'⟩
    rw [hr] at hbody hrun
    have hone (e : Entry) : visitAll (builder s {} none) enclosing [e] b =
        ((e.visit (builder s {} none) enclosing b).1 ++ [],
          (e.visit (builder s {} none) enclosing b).2) := rfl
    rw [hone, visit_of_concrete hfound made.concrete args body closing b hr]
    exact hbody.statement hs hfound made.concrete hrun
      (exists_receives rest hbody.descends hrest contains) role args closing
  | @role l list items stages' h ih => exact (ih enclosing hdescends hkin b).role list

end CommandText
