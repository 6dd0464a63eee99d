import CommandText.Proofs.DeliveredStatements
import CommandText.Proofs.ElementPath
import CommandText.Proofs.InstantiatedModel

/-!
# An element for every statement

Where a text is turned into elements without a problem, nothing of its structure is lost: each
statement has its element, those on root level are the roots, and all others are contained in the
element of the statement around them, in the order of the text. So whoever loses a statement or a
child tells a problem.

The proof runs the builder beside the scribe, who writes down every statement that it is told of.
As long as no problem is told, both give the same answers.
-/

namespace CommandText

open List Model BuildM Entry

namespace Model

/-- An element has the class that the command of its statement stands for, inside an element of
another class or on root level. -/
def Found (s : Schema) (outer : Option ClassId) (statements : List (Statement ElementId))
    (m : Model) (k : ElementId) : Prop :=
  ∃ statement, statements[k]? = some statement ∧
    s.classForCommand? statement.command.text outer = some (m.classOf k)

/-- The elements of a model have the structure of some statements: an element has the number of its
statement. -/
structure Realizes (s : Schema) (m : Model) (statements : List (Statement ElementId)) : Prop where
  size : m.size = statements.length
  line : ∀ k statement, statements[k]? = some statement →
    (m.elementAt k).line = some statement.command.line
  rootClass : ∀ k ∈ rootNumbers statements, m.Found s none statements k
  childClass : ∀ p statement, statements[p]? = some statement →
    ∀ k ∈ statement.children, m.Found s (some (m.classOf p)) statements k
  /-- The element of a statement contains those of its block. -/
  contained : ∀ p statement, statements[p]? = some statement → ∀ k ∈ statement.children,
    ∃ f ∈ s.containments (m.classOf p), m.container k = some (p, f)
  /-- The children in one feature are some of those of the block, in the same order. -/
  children : ∀ p statement, statements[p]? = some statement →
    ∀ f ∈ s.containments (m.classOf p),
      m.children p f = statement.children.filter fun k => m.container k = some (p, f)

variable {s : Schema} {outer : Option ClassId} {told told' : List (Statement ElementId)}
  {m m' : Model} {k : ElementId}

theorem Found.lt_length (h : m.Found s outer told k) : k < told.length := by
  obtain ⟨statement, hk, -⟩ := h
  exact (List.getElem?_eq_some_iff.mp hk).1

theorem Found.later (h : m.Found s outer told k) (htold : told <+: told')
    (hclass : m'.classOf k = m.classOf k) : m'.Found s outer told' k := by
  have hlt := h.lt_length
  obtain ⟨statement, hk, hfound⟩ := h
  obtain ⟨new, rfl⟩ := htold
  refine ⟨statement, ?_, hclass.symm ▸ hfound⟩
  rw [getElem?_append_left hlt, hk]

theorem realizes_empty (s : Schema) : Realizes s {} [] :=
  ⟨rfl, by simp, by simp [rootNumbers], by simp, by simp, by simp⟩

theorem getElem?_concat_cases {last statement : Statement ElementId}
    (h : (told ++ [last])[k]? = some statement) :
    (k < told.length ∧ told[k]? = some statement) ∨ (k = told.length ∧ statement = last) := by
  rcases Nat.lt_trichotomy k told.length with hk | rfl | hk
  · rw [getElem?_append_left hk] at h
    exact .inl ⟨hk, h⟩
  · rw [getElem?_concat_length] at h
    exact .inr ⟨rfl, (Option.some.inj h).symm⟩
  · rw [getElem?_eq_none (by simp; omega)] at h
    cases h

theorem Realizes.concat (h : m.Realizes s told) {c : ClassId} (statement : Statement ElementId)
    (hfilled : Filled s m.size statement.children
      (m.create c (some statement.command.line)) m')
    (hroot : statement.isRoot = true →
      s.classForCommand? statement.command.text none = some c)
    (hchildren : ∀ k ∈ statement.children, m.Found s (some c) told k) :
    m'.Realizes s (told ++ [statement]) := by
  have hlater {outer : Option ClassId} {j : ElementId} (hj : m.Found s outer told j) :
      m'.Found s outer (told ++ [statement]) j := by
    refine hj.later (prefix_append _ _) (hfilled.classOf_of_lt ?_)
    rw [h.size]
    exact hj.lt_length
  -- every statement is an earlier one or the last one
  have hcases {p : ElementId} {st : Statement ElementId}
      (hp : (told ++ [statement])[p]? = some st) :
      (p < m.size ∧ told[p]? = some st) ∨ (p = m.size ∧ st = statement) := by
    rw [h.size]
    exact getElem?_concat_cases hp
  refine ⟨?_, fun p st hp => ?_, fun k hk => ?_, fun p st hp k hk => ?_, fun p st hp k hk => ?_,
    fun p st hp f hf => ?_⟩
  · rw [hfilled.size, size_create, h.size, length_append, length_singleton]
  · rw [hfilled.lineOf, elementAt_create]
    rcases hcases hp with ⟨hlt, hp⟩ | ⟨rfl, rfl⟩
    · rw [if_neg (Nat.ne_of_lt hlt), h.line p st hp]
    · rw [if_pos rfl]
  · rw [rootNumbers_concat] at hk
    rcases mem_append.mp hk with hk | hk
    · exact hlater (h.rootClass k hk)
    · split at hk
      · next hisRoot =>
        obtain rfl := mem_singleton.mp hk
        refine ⟨statement, getElem?_concat_length, ?_⟩
        rw [← h.size, hfilled.classOf_last]
        exact hroot hisRoot
      · cases hk
  · rcases hcases hp with ⟨hlt, hp⟩ | ⟨rfl, rfl⟩
    · rw [hfilled.classOf_of_lt hlt]
      exact hlater (h.childClass p st hp k hk)
    · rw [hfilled.classOf_last]
      exact hlater (hchildren k hk)
  · rcases hcases hp with ⟨hlt, hp⟩ | ⟨rfl, rfl⟩
    · obtain ⟨f, hf, hcontainer⟩ := h.contained p st hp k hk
      rw [hfilled.classOf_of_lt hlt]
      exact ⟨f, hf, hfilled.kept_of_create hcontainer⟩
    · rw [hfilled.classOf]
      exact hfilled.contained k hk
  · have hcontainment : (s.featureAt f).isContainment = true := (mem_filter.mp hf).2
    rcases hcases hp with ⟨hlt, hp⟩ | ⟨rfl, rfl⟩
    · -- the children of earlier statements have their places already
      rw [hfilled.classOf_of_lt hlt] at hf
      rw [hfilled.children_of_lt hlt hcontainment, h.children p st hp f hf]
      refine filter_congr fun k hk => ?_
      obtain ⟨g, -, hcontainer⟩ := h.contained p st hp k hk
      rw [hcontainer, hfilled.kept_of_create hcontainer]
    · exact hfilled.children_last hcontainment

end Model

/-! ### The builder beside the scribe -/

variable {τ : Type} {s : Schema}

/-- What the builder and the scribe have made of the same entries. -/
structure Accords (s : Schema) (outer : Option ClassId)
    (r : List (Member ElementId) × Building τ)
    (r' : List (Member ElementId) × List (Statement ElementId)) : Prop where
  members : r'.1 = r.1
  model : r.2.model.Realizes s r'.2
  roots : r.2.roots = rootNumbers r'.2
  found : ∀ k ∈ r.1.flatMap Member.answers, r.2.model.Found s outer r'.2 k

theorem Accords.forget {outer outer' : Option ClassId} {ms ms' : List (Member ElementId)}
    {b : Building τ} {told : List (Statement ElementId)}
    (h : Accords s outer (ms, b) (ms', told)) : Accords s outer' ([], b) ([], told) :=
  ⟨rfl, h.model, h.roots, by simp⟩

theorem Accords.role {outer : Option ClassId} {ms ms' : List (Member ElementId)} {b : Building τ}
    {told : List (Statement ElementId)} (h : Accords s outer (ms, b) (ms', told)) (label : Token)
    (list : Bool) : Accords s outer ([.role label (ms.filterMap Member.child?) list], b)
      ([.role label (ms'.filterMap Member.child?) list], told) := by
  refine ⟨by rw [show ms' = ms from h.members], h.model, h.roots, fun k hk => h.found k ?_⟩
  rw [flatMap_singleton, Member.answers] at hk
  obtain ⟨member, hmember, hchild⟩ := mem_filterMap.mp hk
  refine mem_flatMap.mpr ⟨member, hmember, ?_⟩
  cases member with
  | child a =>
    cases hchild
    exact mem_singleton_self _
  | role => cases hchild

theorem roots_furnish (origin : Origin) (statement : Statement ElementId) (c : ClassId)
    (b : Building τ) : (conclude s origin none c statement b).roots =
      b.roots ++ if statement.isRoot then [b.model.size] else [] := by
  refine (Modest.roots (x := furnish s origin none statement b.model.size) _).trans ?_
  show (if statement.isRoot then b.roots ++ [b.model.size] else b.roots) = _
  split
  · rfl
  · rw [append_nil]

theorem accords_leave (hs : s.Accepted) {origin : Origin} {w : Token} {args : List Argument}
    {closing : Closing} {enclosing : Option (Option ClassId)} {c : ClassId}
    (hfound : s.classForCommand? w.text enclosing.join = some c)
    {members : List (Member ElementId)} {b : Building τ} {told : List (Statement ElementId)}
    (h : Accords s (some c) (members, b) (members, told))
    (hproblems :
      (conclude s origin none c (closed w args closing enclosing members) b).problems = []) :
    Accords s enclosing.join
      ([.child b.model.size], conclude s origin none c (closed w args closing enclosing members) b)
      ([.child told.length], told ++ [closed w args closing enclosing members]) := by
  let statement := closed w args closing enclosing members
  have hsize : b.model.size = told.length := h.model.size
  have hanswers : ∀ member ∈ members, ∀ k ∈ member.answers, k < b.model.size := by
    intro member hmember k hk
    rw [hsize]
    exact (h.found k (mem_flatMap.mpr ⟨member, hmember, hk⟩)).lt_length
  have hlt : b.model.size < (BuildM.create c w.line enclosing.isNone b).2.model.size :=
    (Model.size_create b.model c (some w.line)).symm ▸ Nat.lt_succ_self _
  have hfilled : Filled s b.model.size statement.children (b.model.create c (some w.line))
      (conclude s origin none c statement b).model :=
    filled_furnish hs origin statement hanswers hlt hproblems
  refine ⟨by rw [hsize], h.model.concat statement hfilled ?_ h.found, ?_, ?_⟩
  · intro hroot
    have hnone : enclosing = none := Option.isNone_iff_eq_none.mp hroot
    rw [hnone] at hfound
    exact hfound
  · have hroots : b.roots = rootNumbers told := h.roots
    rw [rootNumbers_concat, ← hroots, ← hsize]
    exact roots_furnish origin statement c b
  · intro k hk
    obtain rfl := mem_singleton.mp hk
    refine ⟨statement, ?_, ?_⟩
    · rw [hsize]
      exact getElem?_concat_length
    · rw [hfilled.classOf_last]
      exact hfound

/-- A property of what the builder and the scribe have made is kept by the end of every statement,
as long as no problem is told. -/
def KeptAtEnd (s : Schema) (origin : Origin)
    (P : Building τ → List (Statement ElementId) → Prop) : Prop :=
  ∀ (c : ClassId) (statement : Statement ElementId) (b : Building τ)
    (told : List (Statement ElementId)), b.model.size = told.length → P b told →
    (conclude s origin none c statement b).problems = [] →
      P (conclude s origin none c statement b) (told ++ [statement])

section Kept

variable {origin : Origin} {P : Building τ → List (Statement ElementId) → Prop}

mutual

theorem kept_visit (hs : s.Accepted) (hkept : KeptAtEnd s origin P)
    (enclosing : Option (Option ClassId)) (entry : Entry) {b : Building τ}
    {told : List (Statement ElementId)} (h : Accords s none ([], b) ([], told)) (hP : P b told)
    (hproblems : (entry.visit (builder s origin none) enclosing b).2.problems = []) :
    Accords s enclosing.join (entry.visit (builder s origin none) enclosing b)
      (entry.visit scribe (enclosing.map fun _ => ()) told) ∧
    P (entry.visit (builder s origin none) enclosing b).2
      (entry.visit scribe (enclosing.map fun _ => ()) told).2 := by
  cases entry with
  | comment c => exact ⟨h.forget, hP⟩
  | role label list items =>
    obtain ⟨h, hP⟩ := kept_visitAll hs hkept enclosing items h hP hproblems
    exact ⟨h.role label list, hP⟩
  | statement w args body closing =>
    cases closing with
    | none =>
      -- a statement in which reading was given up hands nothing on
      obtain ⟨h, hP⟩ := kept_visitAll hs hkept _ body h hP hproblems
      exact ⟨h.forget, hP⟩
    | some closing =>
      obtain ⟨c, hfound, hc, hbody⟩ := concrete_of_visit hproblems
      obtain ⟨hblock, hP⟩ := kept_visitAll hs hkept (some (some c)) body h hP hbody
      rcases hr : visitAll (builder s origin none) (some (some c)) body b with ⟨members, b'⟩
      rw [visit_of_concrete hfound hc args body closing b hr] at hproblems ⊢
      rw [visit_scribe, Option.isNone_map]
      rcases hr' : visitAll scribe (some ()) body told with ⟨members', told'⟩
      rw [hr, Option.map_some, hr'] at hblock hP
      obtain rfl : members' = members := hblock.members
      exact ⟨accords_leave hs hfound hblock hproblems,
        hkept c (closed w args closing enclosing members') b' told' hblock.model.size hP hproblems⟩

theorem kept_visitAll (hs : s.Accepted) (hkept : KeptAtEnd s origin P)
    (enclosing : Option (Option ClassId)) (entries : List Entry) {b : Building τ}
    {told : List (Statement ElementId)} (h : Accords s none ([], b) ([], told)) (hP : P b told)
    (hproblems : (visitAll (builder s origin none) enclosing entries b).2.problems = []) :
    Accords s enclosing.join (visitAll (builder s origin none) enclosing entries b)
      (visitAll scribe (enclosing.map fun _ => ()) entries told) ∧
    P (visitAll (builder s origin none) enclosing entries b).2
      (visitAll scribe (enclosing.map fun _ => ()) entries told).2 := by
  cases entries with
  | nil => exact ⟨h.forget, hP⟩
  | cons entry entries =>
    obtain ⟨hfirst, hP⟩ :=
      kept_visit hs hkept enclosing entry h hP (problems_eq_nil_of_visitAll hproblems)
    rw [visitAll_cons] at hproblems ⊢
    rw [visitAll_cons]
    obtain ⟨hlater, hP⟩ := kept_visitAll hs hkept enclosing entries hfirst.forget hP hproblems
    refine ⟨⟨?_, hlater.model, hlater.roots, fun k hk => ?_⟩, hP⟩
    · show _ ++ _ = _ ++ _
      rw [hfirst.members, hlater.members]
    · rw [flatMap_append] at hk
      rcases mem_append.mp hk with hk | hk
      · -- what was handed on before is left alone by the later entries
        have hk := hfirst.found k hk
        refine hk.later (prefix_visitAll_scribe _ _ _) (congrArg Element.type ?_)
        exact (run_builder hs origin CommentKeeper.tame_of_mem_none enclosing entries _).before k
          (hfirst.model.size ▸ hk.lt_length)
      · exact hlater.found k hk

end

/-! ### A whole text -/

/-- What is made of a whole text without a problem. -/
theorem kept_text (hs : s.Accepted) (hkept : KeptAtEnd s origin P) {state : τ} {text : List Char}
    (hP : P { model := {}, keeper := state } [])
    (hproblems : (instantiateWith s origin none state {} text).problems = []) :
    let entries := (parse (tokenize s.pattern text)).entries
    let b := (visitAll (builder s origin none) none entries { model := {}, keeper := state }).2
    b.model.Realizes s (statements entries) ∧
      b.roots = rootNumbers (statements entries) ∧ P b (statements entries) := by
  have hstart : Accords s none ([], { model := {}, keeper := state }) ([], []) :=
    ⟨rfl, realizes_empty s, rfl, by simp⟩
  obtain ⟨haccords, hP⟩ := kept_visitAll hs hkept none _ hstart hP
    (problems_eq_nil_of_instantiateWith hproblems).1
  exact ⟨haccords.model, haccords.roots, hP⟩

end Kept

/-- If a text is turned into elements without a problem, nothing of its structure is lost. Each word
that begins a line is the command of exactly one statement. Each statement has exactly one element.
Those on root level are the roots, in the order of the text. Each other one is in the block of
exactly one statement, whose element contains its own; and the children in one feature stand in the
order of the text. -/
theorem realizes_instantiateWith (hs : s.Accepted) (origin : Origin) (state : τ) (text : List Char)
    (hproblems : (instantiateWith s origin none state {} text).problems = []) :
    let r := instantiateWith s origin none state {} text
    let words := commandWords true (tokenize s.pattern text)
    let statements := statements (parse (tokenize s.pattern text)).entries
    (statements.map (·.command)).Perm words ∧
      r.elements = List.range statements.length ∧ r.model.Realizes s statements ∧
      r.roots = rootNumbers statements ∧ (∀ root ∈ r.roots, r.model.container root = none) ∧
      (r.roots ++ statements.flatMap Statement.children).Perm r.elements ∧
      (commandsAt statements r.roots).Sublist words ∧
      ∀ p < r.model.size, ∀ f ∈ s.containments (r.model.classOf p),
        (commandsAt statements (r.model.children p f)).Sublist words := by
  intro r words statements
  have hparse := (problems_eq_nil_of_instantiateWith hproblems).2
  have hrecorded : Recorded words true [] (rootNumbers statements) statements :=
    recorded_statements hparse
  obtain ⟨hmodel, hroots, -⟩ : r.model.Realizes s statements ∧
      r.roots = rootNumbers statements ∧ True :=
    kept_text (P := fun _ _ => True) hs (fun _ _ _ _ _ _ _ => trivial) trivial hproblems
  obtain ⟨-, helements, hfree⟩ :=
    sound_instantiateWith hs origin CommentKeeper.tame_of_mem_none state text
  have helements : r.elements = List.range statements.length := by
    rw [← hmodel.size]
    exact helements
  refine ⟨hrecorded.commands, helements, hmodel, hroots, fun root hroot => (hfree root hroot).2,
    ?_, ?_, fun p hp f hf => ?_⟩
  · rw [hroots, helements, range_eq_range']
    exact hrecorded.places
  · rw [hroots]
    exact hrecorded.order
  · rw [hmodel.size] at hp
    have hstatement := getElem?_eq_getElem hp
    rw [hmodel.children p _ hstatement f hf]
    exact (filter_sublist.filterMap _).trans (hrecorded.blocks _ (getElem_mem hp))

/-- A box with another one and a list of boxes in it, and a box behind them. -/
def shelfText : List Char :=
  "Box a \x7b\nBox b\nboxes: [\nBox c \x7b\nBox d\n\x7d\nBox e\n]\n\x7d\nBox f\n".toList

theorem realizes_shelfText : ∃ s, boxes.build = .ok s ∧
    (instantiateWith s {} none () {} shelfText).problems = [] ∧
    (instantiateWith s {} none () {} shelfText).roots = [4, 5] ∧
    (instantiateWith s {} none () {} shelfText).model.children 4 1 = [0, 2, 3] ∧
    (instantiateWith s {} none () {} shelfText).model.Realizes s
      (statements (parse (tokenize s.pattern shelfText)).entries) := by
  refine ⟨_, rfl, by decide +kernel, by decide +kernel, by decide +kernel, ?_⟩
  exact (realizes_instantiateWith ⟨boxes, rfl⟩ {} () shelfText (by decide +kernel)).2.2.1

end CommandText
