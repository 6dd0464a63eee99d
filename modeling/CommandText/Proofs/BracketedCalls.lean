import CommandText.Proofs.DeliveredStatements
import CommandText.Proofs.LiveReading

/-!
# Calls of a visitor

What a visitor is told, call by call. The calls are bracketed like the blocks of the text: each
statement is told of with the scope that the visitor gave for its own command word, and holds what
the visitor answered to the statements in between, in their order. The only calls without their
counterpart are the command words that are open where reading was given up.
-/

namespace CommandText

open List Entry

variable {σ Scope α : Type}
variable {cut : Bool} {es : List Entry}

/-- A call of a visitor, with its answer. -/
inductive Call (Scope α : Type)
  | enter (command : Token) (enclosing : Option Scope) (scope : Scope)
  | leave (statement : Statement α) (scope : Scope) (answer : Option α)
  | comment (c : Comment)

/-- The visitor that also keeps its calls, each with the state in which it was made. -/
def Visitor.recorded (v : Visitor σ Scope α) : Visitor (σ × List (σ × Call Scope α)) Scope α where
  enter command enclosing := fun (st, calls) =>
    let (scope, st') := v.enter command enclosing st
    (scope, st', calls ++ [(st, .enter command enclosing scope)])
  leave statement scope := fun (st, calls) =>
    let (answer, st') := v.leave statement scope st
    (answer, st', calls ++ [(st, .leave statement scope answer)])
  comment c := fun (st, calls) => ((), (v.comment c st).2, calls ++ [(st, .comment c)])

namespace Entry

mutual

theorem visit_recorded (v : Visitor σ Scope α) (enclosing : Option Scope) (entry : Entry)
    (st : σ) (calls : List (σ × Call Scope α)) :
    (entry.visit v.recorded enclosing (st, calls)).1 = (entry.visit v enclosing st).1 ∧
      (entry.visit v.recorded enclosing (st, calls)).2.1 = (entry.visit v enclosing st).2 := by
  cases entry with
  | comment c => exact ⟨rfl, rfl⟩
  | role label list items =>
    obtain ⟨hmembers, hstate⟩ := visitAll_recorded v enclosing items st calls
    refine ⟨?_, hstate⟩
    exact congrArg (fun ms : List (Member α) =>
      [Member.role label (ms.filterMap Member.child?) list]) hmembers
  | statement command arguments body closing =>
    obtain ⟨hmembers, hstate⟩ := visitAll_recorded v (some (v.enter command enclosing st).1) body
      (v.enter command enclosing st).2
      (calls ++ [(st, .enter command enclosing (v.enter command enclosing st).1)])
    cases closing with
    | none => exact ⟨rfl, hstate⟩
    | some closing =>
      let scope := (v.enter command enclosing st).1
      let statement (ms : List (Member α)) : Statement α :=
        ⟨command, arguments, ms, closing.comments, closing.note, enclosing.isNone⟩
      have hleave := congrArg₂ (fun ms st => v.leave (statement ms) scope st) hmembers hstate
      exact ⟨congrArg (fun a => a.1.toList.map Member.child) hleave, congrArg Prod.snd hleave⟩

theorem visitAll_recorded (v : Visitor σ Scope α) (enclosing : Option Scope) (entries : List Entry)
    (st : σ) (calls : List (σ × Call Scope α)) :
    (visitAll v.recorded enclosing entries (st, calls)).1 = (visitAll v enclosing entries st).1 ∧
      (visitAll v.recorded enclosing entries (st, calls)).2.1 =
        (visitAll v enclosing entries st).2 := by
  cases entries with
  | nil => exact ⟨rfl, rfl⟩
  | cons entry entries =>
    obtain ⟨hfirst, hstate⟩ := visit_recorded v enclosing entry st calls
    obtain ⟨hrest, hend⟩ := visitAll_recorded v enclosing entries (entry.visit v enclosing st).2
      (entry.visit v.recorded enclosing (st, calls)).2.2
    rw [visitAll_cons, visitAll_cons, hfirst, ← hstate] at *
    exact ⟨congrArg _ hrest, hend⟩

end

end Entry

/-! ### Bracketed calls -/

/-- A command that is open, with the answers so far to the statements in its block. -/
structure OpenCommand (Scope α : Type) where
  command : Token
  scope : Scope
  answers : List α

/-- Hands answers to the innermost open command. -/
def handOver (answers : List α) : List (OpenCommand Scope α) → List (OpenCommand Scope α)
  | [] => []
  | o :: opened => { o with answers := o.answers ++ answers } :: opened

@[simp] theorem handOver_nil (opened : List (OpenCommand Scope α)) :
    handOver [] opened = opened := by
  cases opened <;> simp [handOver]

theorem handOver_append (as bs : List α) (opened : List (OpenCommand Scope α)) :
    handOver (as ++ bs) opened = handOver bs (handOver as opened) := by
  cases opened <;> simp [handOver]

theorem head?_handOver (as : List α) (opened : List (OpenCommand Scope α)) :
    (handOver as opened).head?.map (·.scope) = opened.head?.map (·.scope) := by
  cases opened <;> rfl

/-- What a call does to the commands that are open, the innermost first. -/
inductive Call.Next : List (OpenCommand Scope α) → Call Scope α → List (OpenCommand Scope α) → Prop
  | enter {opened : List (OpenCommand Scope α)} {enclosing : Option Scope} (command : Token)
      (scope : Scope) (henclosing : enclosing = opened.head?.map (·.scope)) :
      Next opened (.enter command enclosing scope) (⟨command, scope, []⟩ :: opened)
  | leave {o : OpenCommand Scope α} {opened : List (OpenCommand Scope α)} {statement : Statement α}
      (answer : Option α) (hcommand : statement.command = o.command)
      (hroot : statement.isRoot = opened.isEmpty) (hchildren : statement.children = o.answers) :
      Next (o :: opened) (.leave statement o.scope answer) (handOver answer.toList opened)
  | comment {opened : List (OpenCommand Scope α)} (c : Comment) : Next opened (.comment c) opened

/-- What calls one after the other do to the commands that are open. -/
inductive Nested :
    List (OpenCommand Scope α) → List (Call Scope α) → List (OpenCommand Scope α) → Prop
  | nil {opened : List (OpenCommand Scope α)} : Nested opened [] opened
  | cons {opened opened₁ opened₂ : List (OpenCommand Scope α)} {call : Call Scope α}
      {calls : List (Call Scope α)} (hcall : call.Next opened opened₁)
      (h : Nested opened₁ calls opened₂) : Nested opened (call :: calls) opened₂

theorem Nested.append {opened opened₁ opened₂ : List (OpenCommand Scope α)}
    {calls later : List (Call Scope α)} (h : Nested opened calls opened₁)
    (h' : Nested opened₁ later opened₂) : Nested opened (calls ++ later) opened₂ := by
  induction h with
  | nil => exact h'
  | cons hcall _ ih => exact .cons hcall (ih h')

theorem flatMap_answers_child (as : List α) :
    (as.map Member.child).flatMap Member.answers = as := by
  simp [flatMap_map, Member.answers]

theorem exists_nested_nil (opened : List (OpenCommand Scope α)) :
    ∃ calls, Nested opened calls [] := by
  induction opened with
  | nil => exact ⟨[], .nil⟩
  | cons o opened ih =>
    obtain ⟨calls, h⟩ := ih
    let statement : Statement α := ⟨o.command, [], o.answers.map .child, [], none, opened.isEmpty⟩
    have hchildren : statement.children = o.answers := flatMap_answers_child _
    have hnext : (Call.leave statement o.scope none).Next (o :: opened) opened := by
      have hleave : (Call.leave statement o.scope none).Next (o :: opened) _ :=
        .leave none rfl rfl hchildren
      rwa [Option.toList_none, handOver_nil] at hleave
    exact ⟨_, .cons hnext h⟩

/-! ### Entries as they are read -/

/-- Entries in which all commands are complete, unless they may be `cut` short in the last one.
Roles occur directly in blocks only. -/
inductive Shaped : (cut inBlock : Bool) → List Entry → Prop
  | nil {cut inBlock : Bool} : Shaped cut inBlock []
  | comment {cut inBlock : Bool} (c : Comment) {es : List Entry} (h : Shaped cut inBlock es) :
      Shaped cut inBlock (.comment c :: es)
  | role {cut : Bool} (label : Token) (list : Bool) {items es : List Entry}
      (hi : Shaped false false items) (h : Shaped cut true es) :
      Shaped cut true (.role label list items :: es)
  | openRole (label : Token) (list : Bool) {items : List Entry} (hi : Shaped true false items) :
      Shaped true true [.role label list items]
  | statement {cut inBlock : Bool} (command : Token) (args : List Argument) (closing : Closing)
      {body es : List Entry} (hb : Shaped false true body) (h : Shaped cut inBlock es) :
      Shaped cut inBlock (.statement command args body (some closing) :: es)
  | openStatement {inBlock : Bool} (command : Token) (args : List Argument) {body : List Entry}
      (hb : Shaped true true body) : Shaped true inBlock [.statement command args body none]

theorem Shaped.append {inBlock : Bool} {xs ys : List Entry} (h : Shaped false inBlock xs)
    (h' : Shaped cut inBlock ys) : Shaped cut inBlock (xs ++ ys) := by
  generalize hcut : false = whole at h
  induction h with
  | nil => exact h'
  | comment c _ ih => exact .comment c (ih h' hcut)
  | role label list hi _ _ ih => exact .role label list hi (ih h' hcut)
  | statement command args closing hb _ _ ih =>
    exact .statement command args closing hb (ih h' hcut)
  | openRole | openStatement => cases hcut

theorem Shaped.mono {inBlock : Bool} (h : Shaped false inBlock es) (cut : Bool) :
    Shaped cut inBlock es := by
  have hnil : Shaped cut inBlock [] := .nil
  simpa using h.append hnil

theorem Shaped.inBlock {inBlock : Bool} (h : Shaped cut inBlock es) : Shaped cut true es := by
  induction h with
  | nil => exact .nil
  | comment c _ ih => exact .comment c ih
  | role label list hi h _ _ => exact .role label list hi h
  | openRole label list hi => exact .openRole label list hi
  | statement command args closing hb _ _ ih => exact .statement command args closing hb ih
  | openStatement command args hb => exact .openStatement command args hb

theorem Shaped.lastRole (label : Token) (list : Bool) {items : List Entry}
    (h : Shaped cut false items) : Shaped cut true [.role label list items] := by
  cases cut with
  | true => exact .openRole label list h
  | false => exact .role label list h .nil

theorem Shaped.reaches {inBlock : Bool} {r s : Reading} (h : Shaped r.halted inBlock es)
    (hreach : r.Reaches s) : Shaped s.halted inBlock es := by
  cases hr : r.halted with
  | true =>
    rw [hreach.eq_of_halted hr]
    exact h
  | false =>
    rw [hr] at h
    exact h.mono _

theorem Shaped.append_reaches {inBlock : Bool} {xs ys : List Entry} {r s : Reading}
    (h : Shaped r.halted inBlock xs) (h' : Shaped s.halted inBlock ys) (hreach : r.Reaches s)
    (hhalted : r.halted = true → ys = []) : Shaped s.halted inBlock (xs ++ ys) := by
  cases hr : r.halted with
  | true =>
    rw [hhalted hr, append_nil]
    exact h.reaches hreach
  | false =>
    rw [hr] at h
    exact h.append h'

namespace ReadM

/-- A reader gives entries that are cut short only if reading has been given up. -/
def Shapes {β : Type} (m : ReadM β) (entries : β → List Entry) (inBlock : Bool) : Prop :=
  ∀ r, Shaped (m r).2.halted inBlock (entries (m r).1)

section Shapes

variable {m i t : ReadM (List Entry)} {b : ReadM Body}

theorem shapes_block [Moves b] (hb : Shapes b Prod.fst true) : Shapes (block b) Prod.fst true :=
  fun _ => (hb _).reaches (Moves.reaches (m := discard (consume [.punct .closeBrace])) _)

theorem shapes_elementList (hi : Shapes i id false) : Shapes (elementList i) Prod.fst false :=
  fun _ => (hi _).reaches (Moves.reaches (m := bracketLine .closeBracket) _)

theorem shapes_roleBody (hi : Shapes i id false) (ht : Shapes t id false) :
    Shapes (roleBody i t) (·.2.1) false := by
  intro r
  rw [roleBody_eq, nextIs_bind_apply]
  split
  · exact shapes_elementList hi r
  · exact ht _

theorem shapes_command [Moves b] (hb : Shapes b Prod.fst true) (above notes : List Token) :
    Shapes (command b above notes) id false := by
  intro r
  generalize hc : consume [.kind .identifier] r = c
  obtain ⟨word, s⟩ := c
  cases word with
  | none =>
    rw [command, bind_apply, hc]
    exact .nil
  | some word =>
    have hblock : Shapes (ownBlock b) Prod.fst true := by
      intro r
      rw [ownBlock, nextIs_bind_apply]
      split
      · exact shapes_block hb r
      · exact .nil
    have hbody := (hblock (arguments s).2).reaches (Moves.reaches (m := closeLine) _)
    rw [command_of_word hc]
    change Shaped (closeLine (ownBlock b (arguments s).2).2).2.halted false
      [.statement word _ _ (if (closeLine (ownBlock b (arguments s).2).2).2.halted then _ else _)]
    cases hend : (closeLine (ownBlock b (arguments s).2).2).2.halted with
    | true =>
      rw [hend] at hbody
      exact .openStatement word _ hbody
    | false =>
      rw [hend] at hbody
      exact .statement word _ _ hbody .nil

theorem shapes_looseLines (comments notes : List Token) :
    Shapes (looseLines comments notes) id false := by
  intro r
  rw [id, looseLines_fst]
  cases comments with
  | nil => exact .nil
  | cons t ts => exact .comment _ .nil

end Shapes

/-- All recursive readers at once, by induction on their bound. -/
theorem shapes_recursive (bound : Nat) :
    (∀ isLoose, Shapes (statement bound isLoose) id false) ∧
    Shapes (members bound) Prod.fst true ∧ ∀ stop, Shapes (items stop bound) id false := by
  induction bound with
  | zero => exact ⟨fun _ _ => .nil, fun _ => .nil, fun _ _ => .nil⟩
  | succ bound ih =>
    obtain ⟨ihs, ihm, ihi⟩ := ih
    refine ⟨fun isLoose r => ?_, fun r => ?_, fun stop r => ?_⟩
    · rw [statement, bind_apply, bind_apply, unlessHalted_apply]
      split
      · exact .nil
      · rw [nextIs_bind_apply]
        split
        · exact shapes_looseLines _ _ _
        · exact shapes_command ihm _ _ _
    · rw [members, nextIs_bind_apply]
      split
      · exact .nil
      · rw [nextIs_bind_apply]
        split
        · next hlabel =>
          obtain ⟨t, ht, -⟩ := Reading.exists_next?_of_nextIs hlabel
          have htoken : take r = (some t, r.advance) := Prod.ext ht rfl
          rw [bind_apply, htoken]
          exact (Shaped.lastRole t _ (shapes_roleBody (ihi _) (ihs false) _)).append_reaches (ihm _)
            (Moves.reaches _) fun h => congrArg (·.1.1) (members_of_halted h bound)
        · exact ((ihs true r).inBlock).append_reaches (ihm _) (Moves.reaches _)
            fun h => congrArg (·.1.1) (members_of_halted h bound)
    · rw [items, nextIs_bind_apply]
      split
      · exact .nil
      · exact (ihs true r).append_reaches (ihi stop _) (Moves.reaches _)
          fun h => congrArg Prod.fst (items_of_halted h stop bound)

end ReadM

/-! ### Visiting them -/

theorem Shaped.filterMap_child? (h : Shaped cut false es) (v : Visitor σ Scope α)
    (enclosing : Option Scope) (st : σ) :
    (visitAll v enclosing es st).1.filterMap Member.child? =
      (visitAll v enclosing es st).1.flatMap Member.answers := by
  generalize hroles : false = inBlock at h
  induction h generalizing st with
  | nil => rfl
  | comment c _ ih => exact ih _ hroles
  | role | openRole => cases hroles
  | statement command args closing _ _ _ ih =>
    have hanswer : ∀ a : Option α, (a.toList.map Member.child).filterMap Member.child? =
        (a.toList.map Member.child).flatMap Member.answers := by
      intro a
      cases a <;> rfl
    rw [visitAll_cons, filterMap_append, flatMap_append, ih _ hroles]
    exact congrArg (· ++ _) (hanswer _)
  | openStatement => rfl

/-- The calls so far are bracketed. Unless a command has been left open, those are open that were so
before, and the innermost has been handed the answers since. -/
def Delivers (start opened : List (OpenCommand Scope α)) (cut : Bool) (ms : List (Member α))
    (calls : List (σ × Call Scope α)) : Prop :=
  ∃ opened', Nested start (calls.map Prod.snd) opened' ∧
    (cut = false → opened' = handOver (ms.flatMap Member.answers) opened)

theorem Delivers.append {start opened : List (OpenCommand Scope α)} {ms ms' : List (Member α)}
    {calls calls' : List (σ × Call Scope α)} (h : Delivers start opened false ms calls)
    (h' : ∀ opened', opened'.head?.map (·.scope) = opened.head?.map (·.scope) →
      Nested start (calls.map Prod.snd) opened' → Delivers start opened' cut ms' calls') :
    Delivers start opened cut (ms ++ ms') calls' := by
  obtain ⟨opened₁, hcalls, hopened⟩ := h
  have hhead := head?_handOver (ms.flatMap Member.answers) opened
  rw [← hopened rfl] at hhead
  obtain ⟨opened₂, hcalls', hopened'⟩ := h' opened₁ hhead hcalls
  refine ⟨opened₂, hcalls', fun hcut => ?_⟩
  rw [hopened' hcut, hopened rfl, flatMap_append, handOver_append]

theorem Nested.snoc {opened opened₁ opened₂ : List (OpenCommand Scope α)}
    {calls : List (σ × Call Scope α)} {st : σ} {call : Call Scope α}
    (h : Nested opened (calls.map Prod.snd) opened₁)
    (hcall : call.Next opened₁ opened₂) :
    Nested opened ((calls ++ [(st, call)]).map Prod.snd) opened₂ := by
  rw [map_append]
  exact h.append (.cons hcall .nil)

theorem Shaped.delivers {inBlock : Bool} (h : Shaped cut inBlock es) (v : Visitor σ Scope α)
    {start opened : List (OpenCommand Scope α)} {enclosing : Option Scope}
    (henclosing : enclosing = opened.head?.map (·.scope)) (st : σ) (calls : List (σ × Call Scope α))
    (hcalls : Nested start (calls.map Prod.snd) opened) :
    Delivers start opened cut (visitAll v.recorded enclosing es (st, calls)).1
      (visitAll v.recorded enclosing es (st, calls)).2.2 := by
  induction h generalizing opened enclosing st calls with
  | nil => exact ⟨opened, hcalls, fun _ => (handOver_nil opened).symm⟩
  | comment c _ ih => exact ih henclosing _ _ (hcalls.snoc (.comment c))
  | @role _ label list items _ hi _ ihi ih =>
    rw [visitAll_cons]
    have hrole : Delivers start opened false
        ((Entry.role label list items).visit v.recorded enclosing (st, calls)).1
        ((Entry.role label list items).visit v.recorded enclosing (st, calls)).2.2 := by
      obtain ⟨opened', hnested, hopened⟩ := ihi henclosing st calls hcalls
      refine ⟨opened', hnested, fun hcut => ?_⟩
      rw [hopened hcut, ← hi.filterMap_child? v.recorded]
      exact congrArg (handOver · opened) (append_nil _).symm
    exact hrole.append fun opened' hhead hnested => ih (henclosing.trans hhead.symm) _ _ hnested
  | openRole label list hi ihi =>
    obtain ⟨opened', hnested, -⟩ := ihi henclosing st calls hcalls
    exact ⟨opened', hnested, nofun⟩
  | @statement _ _ command args closing body _ hb _ ihb ih =>
    rw [visitAll_cons]
    have hstatement : Delivers start opened false
        ((Entry.statement command args body (some closing)).visit v.recorded enclosing
          (st, calls)).1
        ((Entry.statement command args body (some closing)).visit v.recorded enclosing
          (st, calls)).2.2 := by
      obtain ⟨opened', hnested, hopened⟩ :=
        ihb rfl _ _ (hcalls.snoc (.enter command (v.enter command enclosing st).1 henclosing))
      rw [hopened rfl] at hnested
      have hroot : enclosing.isNone = opened.isEmpty := by
        rw [henclosing]
        cases opened <;> rfl
      refine ⟨_, hnested.snoc (.leave _ rfl hroot (nil_append _).symm), fun _ => ?_⟩
      exact congrArg (handOver · opened) (flatMap_answers_child _).symm
    exact hstatement.append fun opened' hhead hnested =>
      ih (henclosing.trans hhead.symm) _ _ hnested
  | openStatement command args hb ihb =>
    obtain ⟨opened', hnested, -⟩ :=
      ihb rfl _ _ (hcalls.snoc (.enter command (v.enter command _ st).1 henclosing))
    exact ⟨opened', hnested, nofun⟩

/-- The calls of a visitor are bracketed: each statement comes with the scope given for its own
command word, is on root level exactly if no other command is open, and holds the answers to the
statements in its block, each once and in order. All commands that were entered are left, unless
reading was given up in them. -/
theorem calls_nested (v : Visitor σ Scope α) (tokens : List Token) (st : σ) :
    let calls := (visitAll v.recorded none (parse tokens).entries (st, [])).2.2.map Prod.snd
    (∃ later, Nested [] (calls ++ later) []) ∧
    ((readAll tokens).2.halted = false → Nested [] calls []) ∧
    (visitAll v.recorded none (parse tokens).entries (st, [])).1 =
      (visitAll v none (parse tokens).entries st).1 ∧
    (visitAll v.recorded none (parse tokens).entries (st, [])).2.1 =
      (visitAll v none (parse tokens).entries st).2 := by
  intro calls
  have hshaped : Shaped (readAll tokens).2.halted false (parse tokens).entries :=
    (ReadM.shapes_recursive _).2.2 none _
  obtain ⟨opened, hnested, hopened⟩ : Delivers [] [] (readAll tokens).2.halted _ _ :=
    hshaped.delivers v rfl st [] .nil
  refine ⟨?_, fun hhalted => ?_, visitAll_recorded v none _ st []⟩
  · obtain ⟨later, hlater⟩ := exists_nested_nil opened
    exact ⟨later, hnested.append hlater⟩
  · rw [hopened hhalted] at hnested
    exact hnested

end CommandText
