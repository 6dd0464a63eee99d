import CommandText.Proofs.AddressedFeatures
import CommandText.Proofs.BuildSteps

/-!
# What binding arguments adds

Binding an argument changes the slots of one element, adds problems behind those told before and
notes references behind those noted before. What it adds depends on the argument and the feature
that it addresses only, not on the state that it is added to.
-/

namespace CommandText

open List Schema Model

/-- The text of a reference. -/
def Value.proxy? : Value → Option String
  | proxy target => some target
  | _ => none

namespace Schema

variable (s : Schema)

/-- What is told of a token that is no value of a feature. -/
def tokenFaults (f : FeatureId) (t : Token) : List Problem :=
  match s.accept (s.featureAt f) t with
  | .error fault => [⟨fault, t.line, none⟩]
  | .ok _ => []

/-- What is told of the values of one argument. -/
def valueFaults (f : FeatureId) (tokens : List Token) (line : Nat) : List Problem :=
  if tokens.length > 1 && !(s.featureAt f).many then
    [⟨.singleValueOnly (s.featureAt f).name, line, none⟩]
  else tokens.flatMap (s.tokenFaults f)

/-- The references among some values of a feature. -/
def links (id : ElementId) (f : FeatureId) (vs : List Value) : List Unresolved :=
  (vs.filterMap Value.proxy?).map (⟨id, (s.featureAt f).name, ·⟩)

theorem links_append (id : ElementId) (f : FeatureId) (vs ws : List Value) :
    s.links id f (vs ++ ws) = s.links id f vs ++ s.links id f ws := by
  rw [links, filterMap_append, map_append, links, links]

/-- What is told of an argument, or of its values. -/
def argumentFaults (line : Nat) : Except Fault FeatureId × Argument → List Problem
  | (.error fault, a) => [⟨fault, a.lineOr line, none⟩]
  | (.ok f, a) => s.valueFaults f a.value.tokens (a.lineOr line)

/-- The references that an argument holds. -/
def argumentLinks (id : ElementId) : Except Fault FeatureId × Argument → List Unresolved
  | (.error _, _) => []
  | (.ok f, a) => s.links id f (s.acceptedValues f a.value.tokens)

end Schema

namespace BuildM

variable {τ : Type} {s : Schema} {id : ElementId}

/-- Changes the slots of an element, and adds problems and references behind those there are. -/
def Adds (id : ElementId) (g : Slots → Slots) (ps : List Problem) (us : List Unresolved)
    (x : BuildM τ Unit) : Prop :=
  ∀ b, x b = ((), { b with
    model := b.model.fill id g
    problems := b.problems ++ ps
    unresolved := b.unresolved ++ us })

theorem Adds.pure (id : ElementId) :
    Adds id (fun slots => slots) [] [] (pure () : BuildM τ Unit) := by
  intro b
  rw [fill_id, append_nil, append_nil]
  rfl

theorem Adds.bind {g h : Slots → Slots} {ps qs : List Problem} {us vs : List Unresolved}
    {x y : BuildM τ Unit} (hx : Adds id g ps us x) (hy : Adds id h qs vs y) :
    Adds id (h ∘ g) (ps ++ qs) (us ++ vs) (x >>= fun _ => y) := by
  intro b
  rw [bind_apply, hx b, hy, ← fill_fill]
  simp only [append_assoc]

theorem Adds.problem (id : ElementId) (fault : Fault) (line : Nat) :
    Adds id (fun slots => slots) [⟨fault, line, none⟩] [] (problem fault line : BuildM τ Unit) := by
  intro b
  rw [fill_id, append_nil]
  rfl

theorem adds_bindValue (f : FeatureId) (t : Token) :
    Adds id (s.storeValue f · t) (s.tokenFaults f t)
      (s.links id f (s.accept (s.featureAt f) t).toOption.toList)
      (bindValue s id f t : BuildM τ Unit) := by
  unfold bindValue storeValue tokenFaults
  cases s.accept (s.featureAt f) t with
  | error fault => exact .problem id fault t.line
  | ok v =>
    intro b
    rw [← addValue_eq_fill, append_nil]
    cases v with
    | proxy target => rfl
    | _ =>
      rw [show s.links id f _ = [] from rfl, append_nil]
      rfl

theorem adds_bindTokens (f : FeatureId) (tokens : List Token) :
    Adds id (fun slots => tokens.foldl (s.storeValue f) slots) (tokens.flatMap (s.tokenFaults f))
      (s.links id f (tokens.filterMap fun t => (s.accept (s.featureAt f) t).toOption))
      (tokens.forM (bindValue s id f) : BuildM τ Unit) := by
  induction tokens with
  | nil => exact .pure id
  | cons t tokens ih =>
    have hcons : (t :: tokens).filterMap (fun t => (s.accept (s.featureAt f) t).toOption) =
        (s.accept (s.featureAt f) t).toOption.toList ++
          tokens.filterMap fun t => (s.accept (s.featureAt f) t).toOption := by
      rw [filterMap_cons]
      cases (s.accept (s.featureAt f) t).toOption <;> rfl
    rw [flatMap_cons, hcons, s.links_append]
    exact (adds_bindValue f t).bind ih

theorem adds_bindValues (f : FeatureId) (tokens : List Token) (line : Nat) :
    Adds id (s.storeValues f tokens) (s.valueFaults f tokens line)
      (s.links id f (s.acceptedValues f tokens))
      (bindValues s id f tokens line : BuildM τ Unit) := by
  unfold bindValues storeValues valueFaults acceptedValues
  by_cases hcount : (tokens.length > 1 && !(s.featureAt f).many) = true
  · simp only [hcount, if_true]
    exact .problem id _ line
  · simp only [hcount, if_false, Bool.false_eq_true]
    exact adds_bindTokens f tokens

theorem adds_bindRest {c : ClassId} {position : Nat} {given : List FeatureId}
    {arguments : List Argument} (hnodup : (given ++ s.addressed c position arguments).Nodup)
    (line : Nat) :
    Adds id (s.argumentSlots c position given arguments)
      ((s.destinations c position arguments).flatMap (s.argumentFaults line))
      ((s.destinations c position arguments).flatMap (s.argumentLinks id))
      (bindRest s id c line position given arguments : BuildM τ Unit) := by
  induction arguments generalizing position given with
  | nil => exact .pure id
  | cons a rest ih =>
    unfold bindRest
    rw [destinations, flatMap_cons, flatMap_cons]
    cases haddress : s.address c position a.label with
    | error fault =>
      rw [addressed_of_error haddress] at hnodup
      rw [argumentSlots_of_error haddress]
      exact (Adds.problem id fault (a.lineOr line)).bind (ih hnodup)
    | ok f =>
      rw [addressed_of_ok haddress, nodup_middle] at hnodup
      have hnew : ¬given.contains f = true := fun hf =>
        (nodup_cons.mp hnodup).1 (mem_append_left _ (contains_iff_mem.mp hf))
      rw [← cons_append] at hnodup
      rw [argumentSlots_of_new haddress hnew]
      simp only [hnew, if_false, Bool.false_eq_true]
      exact (adds_bindValues f a.value.tokens (a.lineOr line)).bind (ih hnodup)

end BuildM

end CommandText
