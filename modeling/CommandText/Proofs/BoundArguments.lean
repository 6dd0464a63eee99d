import CommandText.Proofs.ElementPath

/-!
# The features that arguments are bound to

Where a text is turned into elements without a problem, each argument of a statement addresses a
feature of its own, and the feature holds the values of the argument in their order.
-/

namespace CommandText

open List Model BuildM Entry

variable {a : Argument} {b : Building τ} {f : FeatureId} {before : List Argument} {s : Schema}

/-! ### Arguments that are taken -/

namespace Schema

variable {c : ClassId} {position : Nat} {given : List FeatureId}

/-- A feature accepts some tokens as values, one by one. -/
def AcceptsAll (s : Schema) (f : FeatureId) : List Token → List Value → Prop :=
  List.Forall₂ fun t v => s.accept (s.featureAt f) t = .ok v

/-- Some arguments can be bound without a problem: each of them addresses a feature of its own,
which accepts all its values. `position` counts the unlabeled arguments in front of them, and
`given` holds the features that are addressed there. -/
inductive TakesArguments (s : Schema) (c : ClassId) : Nat → List FeatureId → List Argument → Prop
  | nil {position : Nat} {given : List FeatureId} : TakesArguments s c position given []
  | cons {position : Nat} {given : List FeatureId} {a : Argument} {rest : List Argument}
      {f : FeatureId} {vs : List Value} (haddress : s.address c position a.label = .ok f)
      (hnew : f ∉ given) (hcount : a.value.tokens.length ≤ 1 ∨ (s.featureAt f).many = true)
      (hvalues : s.AcceptsAll f a.value.tokens vs)
      (h : TakesArguments s c (if a.label.isNone then position + 1 else position)
        (f :: given) rest) :
      TakesArguments s c position given (a :: rest)

theorem acceptedValues_eq {tokens : List Token} {vs : List Value}
    (hcount : tokens.length ≤ 1 ∨ (s.featureAt f).many = true) (h : s.AcceptsAll f tokens vs) :
    s.acceptedValues f tokens = vs := by
  have hall : (decide (tokens.length > 1) && !(s.featureAt f).many) = false := by
    rcases hcount with hcount | hmany
    · simp [Nat.not_lt.mpr hcount]
    · simp [hmany]
  rw [acceptedValues, hall, if_neg Bool.false_ne_true]
  clear hall hcount
  induction h with
  | nil => rfl
  | cons ht _ ih => rw [filterMap_cons_some (by rw [ht]; rfl), ih]

theorem get_argumentSlots_of_mem (hf : f ∈ given) (arguments : List Argument) (slots : Slots) :
    (s.argumentSlots c position given arguments slots).get f = slots.get f := by
  induction arguments generalizing position given slots with
  | nil => rfl
  | cons a rest ih =>
    cases haddress : s.address c position a.label with
    | error fault => rw [argumentSlots_of_error haddress, ih hf]
    | ok g =>
      by_cases hgiven : given.contains g = true
      · rw [argumentSlots_of_given haddress hgiven, ih hf]
      · rw [argumentSlots_of_new haddress hgiven, Function.comp, ih (mem_cons_of_mem g hf),
          get_storeValues, if_neg]
        rintro rfl
        exact hgiven (contains_iff_mem.mpr hf)

theorem TakesArguments.exists_values {after : List Argument}
    (h : s.TakesArguments c position given (before ++ a :: after)) (slots : Slots) :
    ∃ f vs, s.address c (position + before.countP (·.label.isNone)) a.label = .ok f ∧ f ∉ given ∧
      s.AcceptsAll f a.value.tokens vs ∧
      (s.argumentSlots c position given (before ++ a :: after) slots).get f =
        slots.get f ++ vs := by
  induction before generalizing position given slots with
  | nil =>
    cases h with
    | @cons _ _ _ _ f vs haddress hnew hcount hvalues h =>
      refine ⟨f, vs, haddress, hnew, hvalues, ?_⟩
      rw [nil_append, argumentSlots_of_new haddress (by simpa using hnew), Function.comp,
        get_argumentSlots_of_mem mem_cons_self, get_storeValues, if_pos rfl,
        acceptedValues_eq hcount hvalues]
  | cons b before ih =>
    cases h with
    | @cons _ _ _ _ g us haddress hnew hcount hvalues h =>
      obtain ⟨f, vs, haddress', hnew', hvalues', hget⟩ := ih h
        (s.storeValues g b.value.tokens slots)
      rw [mem_cons, not_or] at hnew'
      refine ⟨f, vs, ?_, hnew'.2, hvalues', ?_⟩
      · rw [countP_cons]
        rw [← haddress']
        congr 1
        split <;> omega
      · rw [cons_append, argumentSlots_of_new haddress (by simpa using hnew), Function.comp, hget,
          get_storeValues, if_neg hnew'.1]

end Schema

/-! ### Binding without a problem -/

section Bind

variable {τ : Type} {id : ElementId}

theorem acceptsAll_of_bindValues {tokens : List Token} {line : Nat}
    (h : (bindValues s id f tokens line b).2.problems = []) :
    (tokens.length ≤ 1 ∨ (s.featureAt f).many = true) ∧ ∃ vs, s.AcceptsAll f tokens vs := by
  unfold bindValues at h
  split at h
  · exact absurd h (problem_ne_nil _ _ b)
  · next hcount =>
    refine ⟨by simpa [Nat.not_lt, or_iff_not_imp_left] using hcount, ?_⟩
    clear hcount
    induction tokens generalizing b with
    | nil => exact ⟨[], .nil⟩
    | cons t tokens ih =>
      have hrest : (tokens.forM (bindValue s id f) (bindValue s id f t b).2).2.problems = [] := h
      obtain ⟨vs, hvs⟩ := ih hrest
      have hfirst : (bindValue s id f t b).2.problems = [] :=
        problems_eq_nil_of_modest (x := tokens.forM (bindValue s id f)) hrest
      cases haccept : s.accept (s.featureAt f) t with
      | error fault =>
        rw [bindValue, haccept] at hfirst
        exact absurd hfirst (problem_ne_nil _ _ b)
      | ok v => exact ⟨v :: vs, .cons haccept hvs⟩

theorem takesArguments_of_bindRest {c : ClassId} {line position : Nat} {given : List FeatureId}
    {arguments : List Argument}
    (h : (bindRest s id c line position given arguments b).2.problems = []) :
    s.TakesArguments c position given arguments := by
  induction arguments generalizing position given b with
  | nil => exact .nil
  | cons a rest ih =>
    have hfault {fault : Fault} {line' next : Nat} {given' : List FeatureId}
        (h : (bindRest s id c line next given' rest (problem fault line' b).2).2.problems = []) :
        False :=
      problem_ne_nil fault line' b
        (problems_eq_nil_of_modest (x := bindRest s id c line next given' rest) h)
    unfold bindRest at h
    cases haddress : s.address c position a.label with
    | error fault =>
      rw [haddress] at h
      exact (hfault h).elim
    | ok f =>
      simp only [haddress] at h
      split at h
      · exact (hfault h).elim
      · next hgiven =>
        have hrest : (bindRest s id c line (if a.label.isNone then position + 1 else position)
          (f :: given) rest
            (bindValues s id f a.value.tokens (a.lineOr line) b).2).2.problems = [] := h
        obtain ⟨hcount, vs, hvs⟩ := acceptsAll_of_bindValues (problems_eq_nil_of_modest hrest)
        exact .cons haddress (by simpa using hgiven) hcount hvs (ih hrest)

theorem takesArguments_of_furnish {origin : Origin} (c : ClassId) (statement : Statement ElementId)
    (h : (conclude s origin none c statement b).problems = []) :
    s.TakesArguments c 0 [] statement.arguments := by
  have hbegin : (begin s c statement b).problems = [] :=
    problems_eq_nil_of_modest (x := do
      placeChildren s b.model.size statement.members
      setLocation s origin b.model.size statement.command.line
      offerComments s none b.model.size statement.comments statement.note statement.command.line) h
  have hclass : (b.model.create c (some statement.command.line)).classOf b.model.size = c := by
    rw [classOf_create, if_pos rfl]
  have hbind : (bindRest s b.model.size
      ((b.model.create c (some statement.command.line)).classOf b.model.size)
      statement.command.line 0 [] statement.arguments
      (BuildM.create c statement.command.line statement.isRoot b).2).2.problems = [] := hbegin
  rw [hclass] at hbind
  exact takesArguments_of_bindRest hbind

theorem Entry.Path.takes {role : Option Token} {entries : List Entry} {stages : List Stage}
    (h : Entry.Path role entries stages) {enclosing : Option (Option ClassId)}
    (hproblems : (visitAll (builder s {} none) enclosing entries b).2.problems = [])
    {m : Model} {ids : List ElementId} (hdescends : m.Descends s enclosing.join stages ids) :
    List.Forall₂ (fun stage id => s.TakesArguments (m.classOf id) 0 [] stage.arguments)
      stages ids := by
  induction h generalizing enclosing b ids with
  | here =>
    cases hdescends
    exact .nil
  | @statement role before after w args body closing stages h ih =>
    rw [visitAll_append] at hproblems
    have hvisit : ((Entry.statement w args body (some closing)).visit (builder s {} none) enclosing
        (visitAll (builder s {} none) enclosing before b).2).2.problems = [] :=
      problems_eq_nil_of_visitAll hproblems
    obtain ⟨c, hfound, hc, hbody⟩ := concrete_of_visit hvisit
    cases hdescends with
    | @cons _ _ id _ ids made _ rest =>
      obtain rfl : c = m.classOf id := Option.some.inj (hfound.symm.trans made.found)
      refine .cons ?_ (ih hbody rest)
      rw [visit_of_concrete hfound hc args body closing _ rfl] at hvisit
      exact takesArguments_of_furnish (m.classOf id) (closed w args closing enclosing _) hvisit
  | @role before after l list items stages h ih =>
    rw [visitAll_append] at hproblems
    have hvisit : ((Entry.role l list items).visit (builder s {} none) enclosing
        (visitAll (builder s {} none) enclosing before b).2).2.problems = [] :=
      problems_eq_nil_of_visitAll hproblems
    exact ih hvisit hdescends

end Bind

/-! ### Bound values -/

namespace Model

variable {m : Model}

/-- A value of an argument is bound to a feature of an element: the argument, behind some others,
addresses the feature, and the feature holds the value at its place in the argument. The number of
a line replaces what is given for it. -/
structure Binds (s : Schema) (m : Model) (id : ElementId) (before : List Argument) (a : Argument)
    (j : Nat) (f : FeatureId) : Prop where
  addressed : s.address (m.classOf id) (before.countP (·.label.isNone)) a.label = .ok f
  held : ∃ t v, a.value.tokens[j]? = some t ∧ s.accept (s.featureAt f) t = .ok v ∧
    (s.lineAttribute ≠ some (s.featureAt f).name → (m.values id f)[j]? = some v)

theorem Binds.unique {id : ElementId} {j : Nat} {g : FeatureId} (h : m.Binds s id before a j f)
    (h' : m.Binds s id before a j g) : f = g :=
  Except.ok.inj (h.addressed.symm.trans h'.addressed)

theorem Made.exists_binds (hs : s.Accepted) {outer : Option ClassId} {stage : Stage}
    {id : ElementId} (h : m.Made s outer stage id)
    (htakes : s.TakesArguments (m.classOf id) 0 [] stage.arguments) {after : List Argument}
    (hargs : stage.arguments = before ++ a :: after) {j : Nat} {t : Token}
    (ht : a.value.tokens[j]? = some t) : ∃ f, m.Binds s id before a j f := by
  rw [hargs] at htakes
  obtain ⟨f, vs, haddress, -, hvalues, hget⟩ := htakes.exists_values []
  rw [Nat.zero_add] at haddress
  obtain ⟨hj, rfl⟩ := List.getElem?_eq_some_iff.mp ht
  have hj' : j < vs.length := hvalues.length_eq ▸ hj
  refine ⟨f, haddress, _, vs[j], ht, hvalues.get hj hj', fun hline => ?_⟩
  have hf := (s.mem_arguments_iff.mp (hs.mem_of_address haddress)).2
  rw [h.values f hf hline, hargs, hget]
  exact getElem?_eq_getElem hj'

end Model

end CommandText
