import CommandText.Proofs.InstantiatedModel

/-!
# A text behind other texts

A model may hold elements already when a text is turned into elements. Nothing is done to them, and
nothing depends on them: what the text adds is what it gives by itself, with all numbers of elements
moved up by the number of elements that were there.

So putting a model behind another one commutes with every change to it, then with every part of the
work on a statement, and then with a whole run of the builder.
-/

namespace CommandText

open List Entry Model

variable {τ : Type} {n : Nat}

/-! ### Numbers moved up -/

/-- An element that is a value is moved up. -/
def Value.shift (n : Nat) : Value → Value
  | element id => element (n + id)
  | v => v

def Slots.shift (n : Nat) (slots : Slots) : Slots :=
  slots.map (Prod.map id (List.map (Value.shift n)))

/-- The elements that an element refers to are moved up. -/
def Element.shift (n : Nat) (e : Element) : Element :=
  { e with values := e.values.shift n, container := e.container.map (Prod.map (n + ·) id) }

def Unresolved.shift (n : Nat) (u : Unresolved) : Unresolved := { u with element := n + u.element }

@[simp] theorem Value.text?_shift (v : Value) : (v.shift n).text? = v.text? := by
  cases v <;> rfl

@[simp] theorem Slots.get_shift (slots : Slots) (f : FeatureId) :
    (slots.shift n).get f = (slots.get f).map (Value.shift n) := by
  induction slots with
  | nil => rfl
  | cons slot slots ih =>
    obtain ⟨g, vs⟩ := slot
    simp only [shift, get, map_cons, Prod.map, lookup_cons, id] at ih ⊢
    cases f == g with
    | true => rfl
    | false => exact ih

theorem Slots.put_shift (slots : Slots) (f : FeatureId) (vs : List Value) :
    (slots.shift n).put f (vs.map (Value.shift n)) = (slots.put f vs).shift n := by
  induction slots with
  | nil => rfl
  | cons slot slots ih =>
    obtain ⟨g, old⟩ := slot
    show put f _ ((g, _) :: shift n slots) = _
    rw [put, put]
    split
    · rfl
    · rw [ih]
      rfl

/-! ### A model behind another one -/

namespace Model

/-- A model behind another one. -/
def behind (m before : Model) : Model :=
  ⟨before.elements ++ m.elements.map (Element.shift before.size)⟩

variable (m before : Model)

@[simp] theorem size_behind : (m.behind before).size = before.size + m.size := by
  simp [behind, size]

theorem elementAt_behind_of_lt {id : ElementId} (h : id < before.size) :
    (m.behind before).elementAt id = before.elementAt id := by
  rw [elementAt, behind, getD_eq_getElem?_getD, getElem?_append_left h,
    ← getD_eq_getElem?_getD, elementAt]

@[simp] theorem elementAt_behind (id : ElementId) :
    (m.behind before).elementAt (before.size + id) = (m.elementAt id).shift before.size := by
  simp only [elementAt, behind, getD_eq_getElem?_getD, size]
  rw [getElem?_append_right (Nat.le_add_right _ _), Nat.add_sub_cancel_left,
    getElem?_map]
  cases m.elements[id]? <;> rfl

@[simp] theorem classOf_behind (id : ElementId) :
    (m.behind before).classOf (before.size + id) = m.classOf id := by
  rw [classOf, elementAt_behind, Element.shift, classOf]

@[simp] theorem values_behind (id : ElementId) (f : FeatureId) :
    (m.behind before).values (before.size + id) f = (m.values id f).map (.shift before.size) := by
  rw [values, elementAt_behind, Element.shift, Slots.get_shift, values]

@[simp] theorem isSet_behind (id : ElementId) (f : FeatureId) :
    (m.behind before).isSet (before.size + id) f = m.isSet id f := by
  rw [isSet, values_behind, isEmpty_map, isSet]

theorem isFree_behind (child parent : ElementId) :
    (m.behind before).isFree (before.size + child) (before.size + parent) =
      m.isFree child parent := by
  have hne : (before.size + parent != before.size + child) = (parent != child) := by
    rw [Bool.eq_iff_iff, bne_iff_ne, bne_iff_ne]
    simp
  rw [isFree, isFree, container, elementAt_behind, Element.shift, hne, Option.isNone_map, container]

theorem create_behind (type : ClassId) (line : Option Nat) :
    (m.behind before).create type line = (m.create type line).behind before := by
  simp [create, behind, Element.shift, Slots.shift]

theorem update_behind {id : ElementId} {g g' : Element → Element}
    (h : ∀ e : Element, g' (e.shift before.size) = (g e).shift before.size) :
    (m.behind before).update (before.size + id) g' = (m.update id g).behind before := by
  refine congrArg Model.mk (ext_getElem? fun j => ?_)
  rw [getElem?_modify]
  rcases Nat.lt_or_ge j before.size with hj | hj
  · have hne : before.size + id ≠ j := by omega
    rw [behind, getElem?_append_left hj, getElem?_append_left hj]
    simp only [hne, if_false, id_map']
  · obtain ⟨k, rfl⟩ := Nat.exists_eq_add_of_le hj
    rw [behind, getElem?_append_right hj, getElem?_append_right hj, size,
      Nat.add_sub_cancel_left, getElem?_map, getElem?_map, update, getElem?_modify]
    simp only [Nat.add_left_cancel_iff, Option.map_eq_map, Option.map_map]
    refine congrArg (Option.map · _) (funext fun e => ?_)
    by_cases hk : id = k
    · simp only [hk, Function.comp_apply, if_true]
      exact h e
    · simp only [hk, Function.comp_apply, if_false]

theorem putValues_behind (id : ElementId) (f : FeatureId) (vs : List Value) :
    (m.behind before).putValues (before.size + id) f (vs.map (.shift before.size)) =
      (m.putValues id f vs).behind before := by
  refine m.update_behind before fun e => ?_
  simp only [Element.shift, Slots.put_shift]

theorem addValue_behind (id : ElementId) (f : FeatureId) (v : Value) :
    (m.behind before).addValue (before.size + id) f (v.shift before.size) =
      (m.addValue id f v).behind before := by
  rw [addValue, addValue, ← putValues_behind, values_behind, map_append, map_singleton]

theorem setValue_behind (id : ElementId) (f : FeatureId) (v : Value) :
    (m.behind before).setValue (before.size + id) f (v.shift before.size) =
      (m.setValue id f v).behind before :=
  m.putValues_behind before id f [v]

theorem attach?_behind (parent : ElementId) (f : FeatureId) (child : ElementId) :
    (m.behind before).attach? (before.size + parent) f (before.size + child) =
      (m.attach? parent f child).map (·.behind before) := by
  have hcontainer : (m.behind before).update (before.size + child)
      (fun e => { e with container := some (before.size + parent, f) }) =
      (m.update child fun e => { e with container := some (parent, f) }).behind before :=
    m.update_behind before fun e => rfl
  rw [attach?, attach?, isFree_behind, hcontainer]
  split
  · exact congrArg some (addValue_behind _ before parent f (.element child))
  · rfl

end Model

/-- The answers in a member are replaced. -/
def Member.map {α β : Type} (g : α → β) : Member α → Member β
  | child a => child (g a)
  | role label children list => role label (children.map g) list

/-- The answers in a statement are replaced. -/
def Statement.map {α β : Type} (g : α → β) (statement : Statement α) : Statement β :=
  { statement with members := statement.members.map (Member.map g) }

/-! ### The work on a statement -/

/-- A state of the work behind another model. -/
def Building.behind (b : Building τ) (before : Model) : Building τ :=
  { b with
    model := b.model.behind before
    roots := b.roots.map (before.size + ·)
    elements := b.elements.map (before.size + ·)
    unresolved := b.unresolved.map (Unresolved.shift before.size) }

namespace BuildM

variable {before : Model}

/-- What is done by itself is done in the same way behind another model. -/
def Follows (before : Model) (x y : BuildM τ Unit) : Prop :=
  ∀ b : Building τ, y (b.behind before) = ((), (x b).2.behind before)

theorem Follows.pure : Follows before (pure () : BuildM τ Unit) (pure ()) := fun _ => rfl

theorem Follows.bind {x y : BuildM τ Unit} {f g : Unit → BuildM τ Unit} (h : Follows before x y)
    (h' : Follows before (f ()) (g ())) : Follows before (x >>= f) (y >>= g) := by
  intro b
  rw [bind_apply, bind_apply, h b]
  exact h' (x b).2

theorem Follows.forM {α β : Type} {as : List α} {g : α → β} {f : α → BuildM τ Unit}
    {f' : β → BuildM τ Unit} (h : ∀ a, Follows before (f a) (f' (g a))) :
    Follows before (as.forM f) ((as.map g).forM f') := by
  induction as with
  | nil => exact .pure
  | cons a as ih => exact .bind (h a) ih

theorem Follows.each {α : Type} {as : List α} {f f' : α → BuildM τ Unit}
    (h : ∀ a, Follows before (f a) (f' a)) : Follows before (as.forM f) (as.forM f') := by
  have hall : Follows before (as.forM f) ((as.map fun a => a).forM f') := .forM h
  rwa [map_id'] at hall

theorem Follows.problem (fault : Fault) (line : Nat) :
    Follows before (problem fault line : BuildM τ Unit) (problem fault line) := fun _ => rfl

theorem Follows.unresolved (u : Unresolved) :
    Follows before (modify fun b => { b with unresolved := b.unresolved ++ [u] } : BuildM τ Unit)
      (modify fun b => { b with unresolved := b.unresolved ++ [u.shift before.size] }) := by
  intro b
  show ((), { b.behind before with
    unresolved := (b.behind before).unresolved ++ [u.shift before.size] }) =
    ((), { b with unresolved := b.unresolved ++ [u] }.behind before)
  simp only [Building.behind, map_append, map_singleton]

theorem Follows.change {f g : Model → Model}
    (h : ∀ m : Model, g (m.behind before) = (f m).behind before) :
    Follows before (change f : BuildM τ Unit) (change g) := by
  intro b
  show ((), { b.behind before with model := g (b.model.behind before) }) = _
  rw [h]
  rfl

theorem Follows.getModel {f g : Model → BuildM τ Unit}
    (h : ∀ m, Follows before (f m) (g (m.behind before))) :
    Follows before (getModel >>= f) (getModel >>= g) :=
  fun b => h b.model b

theorem Follows.offer {ask ask' : StateM (Model × τ) Bool} {f : Bool → BuildM τ Unit}
    (h : ∀ m t, ask' (m.behind before, t) =
      ((ask (m, t)).1, (ask (m, t)).2.1.behind before, (ask (m, t)).2.2))
    (hf : ∀ taken, Follows before (f taken) (f taken)) :
    Follows before (offer ask >>= f) (offer ask' >>= f) := by
  intro b
  rw [bind_apply, bind_apply, ← hf]
  exact congrArg (fun r : Bool × Model × τ =>
    f r.1 { b.behind before with model := r.2.1, keeper := r.2.2 }) (h b.model b.keeper)

variable (s : Schema) (id : ElementId)

theorem shift_of_accept {f : Feature} {t : Token} {v : Value} (h : s.accept f t = .ok v) :
    v.shift n = v := by
  have hliteral (l : Lexeme) : l.literal.shift n = l.literal := by cases l <;> rfl
  rw [Schema.accept] at h
  split at h
  · split at h
    · cases h
      rfl
    · cases h
  · split at h
    · rw [Schema.convert] at h
      split at h
      · cases h
        rfl
      · split at h
        · cases h
          rfl
        · cases h
      · cases h
        rfl
      · split at h
        · cases h
          rfl
        · cases h
          exact hliteral _
      · cases h
        exact hliteral _
      · cases h
    · cases h

theorem follows_bindValue (f : FeatureId) (t : Token) :
    Follows before (bindValue s id f t : BuildM τ Unit) (bindValue s (before.size + id) f t) := by
  unfold bindValue
  cases h : s.accept (s.featureAt f) t with
  | error fault => exact .problem fault t.line
  | ok v =>
    refine .bind (.change fun m => ?_) ?_
    · have hv : v.shift before.size = v := shift_of_accept s h
      rw [← m.addValue_behind, hv]
    · cases v with
      | proxy target => exact .unresolved ⟨id, (s.featureAt f).name, target⟩
      | _ => exact .pure

theorem follows_bindValues (f : FeatureId) (tokens : List Token) (line : Nat) :
    Follows before (bindValues s id f tokens line : BuildM τ Unit)
      (bindValues s (before.size + id) f tokens line) := by
  unfold bindValues
  split
  · exact .problem _ line
  · exact .each fun t => follows_bindValue s id f t

theorem follows_bindRest (c : ClassId) (line position : Nat) (given : List FeatureId)
    (arguments : List Argument) :
    Follows before (bindRest s id c line position given arguments : BuildM τ Unit)
      (bindRest s (before.size + id) c line position given arguments) := by
  induction arguments generalizing position given with
  | nil => exact .pure
  | cons a rest ih =>
    unfold bindRest
    cases s.address c position a.label with
    | error fault => exact .bind (.problem fault _) (ih _ _)
    | ok f =>
      simp only
      split
      · exact .bind (.problem _ _) (ih _ _)
      · exact .bind (follows_bindValues s id f _ _) (ih _ _)

theorem follows_bindArguments (arguments : List Argument) (line : Nat) :
    Follows before (bindArguments s id arguments line : BuildM τ Unit)
      (bindArguments s (before.size + id) arguments line) := by
  refine .getModel fun m => ?_
  rw [m.classOf_behind]
  exact follows_bindRest s id _ line 0 [] arguments

theorem childLine_behind (m : Model) (child : ElementId) :
    childLine (m.behind before) (before.size + child) = childLine m child := by
  rw [childLine, m.elementAt_behind, Element.shift, childLine]

theorem follows_attachInRole (f : FeatureId) (child : ElementId) :
    Follows before (attachInRole s id f child : BuildM τ Unit)
      (attachInRole s (before.size + id) f (before.size + child)) := by
  refine .getModel fun m => ?_
  simp only [classOf_behind, isSet_behind, attach?_behind, childLine_behind]
  cases (s.featureAt f).target? with
  | none => exact .pure
  | some target =>
    dsimp only
    split
    · exact .problem _ _
    · split
      · exact .problem _ _
      · cases m.attach? id f child with
        | none => exact .problem _ _
        | some m' => exact .change fun _ => rfl

theorem follows_attachUnlabeled (child : ElementId) :
    Follows before (attachUnlabeled s id child : BuildM τ Unit)
      (attachUnlabeled s (before.size + id) (before.size + child)) := by
  refine .getModel fun m => ?_
  simp only [classOf_behind, childLine_behind]
  rcases s.containmentsAccepting (m.classOf id) (m.classOf child) with _ | ⟨f, _ | ⟨g, fs⟩⟩
  · exact .problem _ _
  · dsimp only
    split
    · exact .problem _ _
    · exact follows_attachInRole s id f child
  · exact .problem _ _

theorem follows_placeMember (member : Member ElementId) :
    Follows before (placeMember s id member : BuildM τ Unit)
      (placeMember s (before.size + id) (member.map (before.size + ·))) := by
  cases member with
  | child child => exact follows_attachUnlabeled s id child
  | role label children list =>
    refine .getModel fun m => ?_
    rw [m.classOf_behind]
    cases s.featureNamed? (m.classOf id) label.text with
    | none => exact .problem _ _
    | some f =>
      dsimp only
      split
      · exact .forM fun child => follows_attachInRole s id f child
      · exact .problem _ _

theorem follows_setLocationPart (name : Option String) {value : Option Value}
    (hvalue : ∀ v ∈ value, v.shift before.size = v) :
    Follows before (setLocationPart s id name value : BuildM τ Unit)
      (setLocationPart s (before.size + id) name value) := by
  refine .getModel fun m => ?_
  rw [m.classOf_behind]
  cases name with
  | none => exact .pure
  | some name =>
    cases value with
    | none => exact .pure
    | some v =>
      dsimp only
      cases s.featureNamed? (m.classOf id) name with
      | none => exact .pure
      | some f =>
        dsimp only
        split
        · refine .change fun m => ?_
          rw [← m.setValue_behind, hvalue v rfl]
        · exact .pure

theorem follows_setLocation (origin : Origin) (line : Nat) :
    Follows before (setLocation s origin id line : BuildM τ Unit)
      (setLocation s origin (before.size + id) line) := by
  have htext (text : Option String) : ∀ v ∈ text.map Value.string, v.shift before.size = v := by
    cases text <;> simp [Value.shift]
  refine .bind (follows_setLocationPart s id _ ?_) (.bind (follows_setLocationPart s id _ ?_)
    (follows_setLocationPart s id _ ?_))
  · simp [Value.shift]
  · exact htext origin.file
  · exact htext origin.fragment

end BuildM

/-! ### Comments -/

/-- A keeper that takes the same comments and notes behind another model. -/
structure CommentKeeper.Follows (k : CommentKeeper τ) (before : Model) : Prop where
  comment : ∀ s id c m t, k.comment s (Option.map (before.size + ·) id) c (m.behind before, t) =
    ((k.comment s id c (m, t)).1, (k.comment s id c (m, t)).2.1.behind before,
      (k.comment s id c (m, t)).2.2)
  note : ∀ s id text m t, k.note s (before.size + id) text (m.behind before, t) =
    ((k.note s id text (m, t)).1, (k.note s id text (m, t)).2.1.behind before,
      (k.note s id text (m, t)).2.2)

theorem appendText?_behind (s : Schema) (m before : Model) (id : ElementId) (name text : String) :
    appendText? s (m.behind before) (before.size + id) name text =
      (appendText? s m id name text).map (·.behind before) := by
  rw [appendText?, appendText?, m.classOf_behind]
  cases s.featureNamed? (m.classOf id) name with
  | none => rfl
  | some f =>
    have hhead : ((m.values id f).map (Value.shift before.size)).head?.bind Value.text? =
        (m.values id f).head?.bind Value.text? := by
      cases m.values id f <;> simp
    simp only [Option.bind_eq_bind, Option.bind_some, m.values_behind, hhead]
    split
    · exact congrArg some (m.setValue_behind before id f (.string _))
    · rfl

theorem AttributeKeeper.follows (k : AttributeKeeper) (before : Model) :
    k.keeper.Follows before := by
  have hkeep (s : Schema) (id : ElementId) (name text : String) (m : Model) (t : Unit) :
      keep s (before.size + id) name text (m.behind before, t) =
        ((keep s id name text (m, t)).1, (keep s id name text (m, t)).2.1.behind before,
          (keep s id name text (m, t)).2.2) := by
    simp only [keep, appendText?_behind]
    cases appendText? s m id name text <;> rfl
  refine ⟨fun s id c m t => ?_, fun s id text m t => hkeep s id _ text m t⟩
  cases id with
  | none => rfl
  | some id =>
    simp only [keeper, Option.map_some]
    cases c.kind with
    | above | lineEnd => exact hkeep s id _ c.text m t
    | loose => rfl

namespace BuildM

variable {before : Model} (s : Schema) {keeper : Option (CommentKeeper τ)}

theorem follows_unless (taken : Bool) (fault : Fault) (line : Nat) :
    Follows before (unless taken do problem fault line : BuildM τ Unit)
      (unless taken do problem fault line) := by
  cases taken with
  | true => exact .pure
  | false => exact .problem fault line

theorem follows_offerComments (hkeeper : ∀ k ∈ keeper, k.Follows before) (id : ElementId)
    (comments : List Comment) (note : Option String) (line : Nat) :
    Follows before (offerComments s keeper id comments note line)
      (offerComments s keeper (before.size + id) comments note line) := by
  cases keeper with
  | none =>
    refine .bind (.each fun c => follows_unless true .commentRefused c.line) ?_
    cases note with
    | none => exact .pure
    | some text => exact follows_unless false _ line
  | some k =>
    have hk := hkeeper k rfl
    refine .bind (.each fun c => .offer (hk.comment s (some id) c) fun taken => ?_) ?_
    · exact follows_unless taken _ c.line
    · cases note with
      | none => exact .pure
      | some text => exact .offer (hk.note s id text) fun taken => follows_unless taken _ line

end BuildM

/-! ### Runs of a visitor -/

/-- A visitor whose answers go along with a change of its states: in the changed states it gives the
same scopes, and the answers are replaced by others. -/
structure Visitor.Respects {σ Scope α : Type} (v : Visitor σ Scope α) (g : σ → σ) (h : α → α) :
    Prop where
  enter : ∀ command enclosing st, v.enter command enclosing (g st) =
    ((v.enter command enclosing st).1, g (v.enter command enclosing st).2)
  leave : ∀ statement scope st, v.leave (statement.map h) scope (g st) =
    ((v.leave statement scope st).1.map h, g (v.leave statement scope st).2)
  comment : ∀ c st, (v.comment c (g st)).2 = g (v.comment c st).2

namespace Visitor.Respects

variable {σ Scope α : Type} {v : Visitor σ Scope α} {g : σ → σ} {h : α → α}

theorem filterMap_child? (ms : List (Member α)) :
    (ms.map (Member.map h)).filterMap Member.child? = (ms.filterMap Member.child?).map h := by
  rw [filterMap_map, map_filterMap]
  refine congrArg (List.filterMap · ms) (funext fun member => ?_)
  cases member <;> rfl

mutual

theorem visit (hv : v.Respects g h) (enclosing : Option Scope) (entry : Entry) (st : σ) :
    entry.visit v enclosing (g st) =
      ((entry.visit v enclosing st).1.map (Member.map h), g (entry.visit v enclosing st).2) := by
  cases entry with
  | comment c => exact congrArg (Prod.mk []) (hv.comment c st)
  | role label list items =>
    have hitems := hv.visitAll enclosing items st
    have hrole : ∀ st, (Entry.role label list items).visit v enclosing st =
        ([.role label ((Entry.visitAll v enclosing items st).1.filterMap Member.child?) list],
          (Entry.visitAll v enclosing items st).2) := fun _ => rfl
    rw [hrole, hrole, hitems, filterMap_child?]
    rfl
  | statement command arguments body closing =>
    have hbody := hv.visitAll (some (v.enter command enclosing st).1) body
      (v.enter command enclosing st).2
    cases closing with
    | none =>
      have hopen : ∀ st, (statement command arguments body none).visit v enclosing st =
          ([], (Entry.visitAll v (some (v.enter command enclosing st).1) body
            (v.enter command enclosing st).2).2) := fun _ => rfl
      rw [hopen, hopen, hv.enter, hbody]
      rfl
    | some closing =>
      let close (ms : List (Member α)) : Statement α :=
        ⟨command, arguments, ms, closing.comments, closing.note, enclosing.isNone⟩
      have hclosed : ∀ st, (statement command arguments body (some closing)).visit v enclosing
          st = let scope := v.enter command enclosing st
            let r := Entry.visitAll v (some scope.1) body scope.2
            let answer := v.leave (close r.1) scope.1 r.2
            (answer.1.toList.map .child, answer.2) := fun _ => rfl
      rw [hclosed, hclosed, hv.enter]
      simp only [hbody]
      generalize Entry.visitAll v _ body _ = r
      have hleave : v.leave (close (r.1.map (Member.map h))) _ (g r.2) = _ :=
        hv.leave (close r.1) (v.enter command enclosing st).1 r.2
      rw [hleave]
      cases (v.leave (close r.1) (v.enter command enclosing st).1 r.2).1 <;> rfl

theorem visitAll (hv : v.Respects g h) (enclosing : Option Scope) (entries : List Entry) (st : σ) :
    visitAll v enclosing entries (g st) =
      ((visitAll v enclosing entries st).1.map (Member.map h),
        g (visitAll v enclosing entries st).2) := by
  cases entries with
  | nil => rfl
  | cons entry entries =>
    rw [visitAll_cons, visitAll_cons, hv.visit enclosing entry st]
    simp only [hv.visitAll enclosing entries, map_append]

end

end Visitor.Respects

/-! ### A whole text -/

section Builder

variable {before : Model} {s : Schema} {origin : Origin} {keeper : Option (CommentKeeper τ)}

open BuildM

theorem create_behind (c : ClassId) (line : Nat) (isRoot : Bool) (b : Building τ) :
    (BuildM.create c line isRoot (b.behind before)).2 =
      (BuildM.create c line isRoot b).2.behind before := by
  have hcreate : ∀ b : Building τ, (BuildM.create c line isRoot b).2 = { b with
      model := b.model.create c (some line)
      elements := b.elements ++ [b.model.size]
      roots := if isRoot then b.roots ++ [b.model.size] else b.roots } := fun _ => rfl
  rw [hcreate, hcreate]
  cases isRoot <;> simp [Building.behind, Model.create_behind]

theorem follows_furnish (hkeeper : ∀ k ∈ keeper, k.Follows before)
    (statement : Statement ElementId) (id : ElementId) :
    Follows before (furnish s origin keeper statement id)
      (furnish s origin keeper (statement.map (before.size + ·)) (before.size + id)) :=
  .bind (follows_bindArguments s id _ _)
    (.bind (.forM fun member => follows_placeMember s id member)
      (.bind (follows_setLocation s id origin _) (follows_offerComments s hkeeper id _ _ _)))

theorem respects_builder (hkeeper : ∀ k ∈ keeper, k.Follows before) :
    (builder s origin keeper).Respects (Building.behind · before) (before.size + ·) := by
  refine ⟨fun _ _ _ => rfl, fun statement scope b => ?_, fun c b => ?_⟩
  · cases scope with
    | none => rfl
    | some c =>
      by_cases hc : (s.classAt c).isAbstract = true
      · unfold builder
        simp only [hc, if_true]
        rfl
      · rw [Bool.not_eq_true] at hc
        rw [leave_of_concrete origin keeper _ hc, leave_of_concrete origin keeper _ hc]
        show (some (b.model.behind before).size, (furnish s origin keeper _
          (b.model.behind before).size (BuildM.create c _ _ (b.behind before)).2).2) = _
        rw [create_behind, size_behind, follows_furnish hkeeper]
        rfl
  · cases keeper with
    | none => rfl
    | some k =>
      have hoffer := Follows.offer ((hkeeper k rfl).comment s none c)
        fun taken => follows_unless taken .looseCommentRefused c.line
      exact congrArg Prod.snd (hoffer b)

end Builder

/-- Elements that are there when a text is turned into elements are left alone, and what is added is
what the text gives by itself, with the numbers of elements moved up. -/
theorem extends_instantiateWith (s : Schema) (origin : Origin) (k : Option AttributeKeeper)
    (m : Model) (text : List Char) :
    let r := instantiateWith s origin (k.map AttributeKeeper.keeper) () m text
    let own := instantiateWith s origin (k.map AttributeKeeper.keeper) () {} text
    (∀ id < m.size, r.model.elementAt id = m.elementAt id) ∧
      r.model.elements = m.elements ++ own.model.elements.map (Element.shift m.size) ∧
      r.roots = own.roots.map (m.size + ·) ∧ r.elements = own.elements.map (m.size + ·) ∧
      r.problems = own.problems ∧ r.unresolved = own.unresolved.map (Unresolved.shift m.size) := by
  intro r own
  have hkeeper : ∀ keeper ∈ k.map AttributeKeeper.keeper, keeper.Follows m := by
    intro keeper hkeeper
    obtain ⟨k, -, rfl⟩ := Option.map_eq_some_iff.mp hkeeper
    exact k.follows m
  have hstart : ({ model := {}, keeper := () } : Building Unit).behind m =
      { model := m, keeper := () } := by
    simp [Building.behind, Model.behind]
  have hbuilder : (builder s origin (k.map AttributeKeeper.keeper)).Respects (·.behind m)
      (m.size + ·) := respects_builder hkeeper
  have hrun := hbuilder.visitAll none (parse (tokenize s.pattern text)).entries
    { model := {}, keeper := () }
  rw [hstart] at hrun
  have hend := congrArg Prod.snd hrun
  have hmodel : r.model = own.model.behind m := congrArg Building.model hend
  refine ⟨fun id hid => ?_, congrArg elements hmodel, congrArg Building.roots hend,
    congrArg Building.elements hend, ?_, congrArg Building.unresolved hend⟩
  · rw [hmodel, elementAt_behind_of_lt _ _ hid]
  · have hproblems := congrArg Building.problems hend
    exact congrArg (fun told : List Problem => (sortProblems (told ++ _)).map _) hproblems

end CommandText
