import CommandText.Proofs.BracketedCalls
import Mathlib.Algebra.Order.Group.Multiset
import Mathlib.Tactic.Abel

/-!
# What a visitor is told

The calls of a visitor, taken apart into pieces: words, labels and values with their use in a
statement, and the lines of comments and notes. A visitor is told what stands in the entries that it
works through, each piece once, and it enters the commands in their order.

Labels of roles are not told on their own. They are handed on with the answers to the statements
below them, and told with the statement around them.
-/

namespace CommandText

open List Argument

variable {σ Scope α : Type}

/-- How a word, a label or a value is used in a statement. -/
inductive Use
  | command
  | argumentLabel
  | value
  | roleLabel
deriving DecidableEq, Repr

/-- Whether a token may be used in this way. -/
def Use.fits (t : Token) : Use → Bool
  | command => t.isKind .identifier
  | argumentLabel | roleLabel => t.isKind .label
  | value => t.isValue

/-- A piece of what is told of a text. -/
inductive Content
  | token (use : Use) (t : Token)
  | commentLine (line : Line)
  | noteLine (line : Line)
deriving DecidableEq, Repr

namespace Content

def token? : Content → Option Token
  | token _ t => some t
  | _ => none

def command? : Content → Option Token
  | token .command t => some t
  | _ => none

def commentLine? : Content → Option Line
  | commentLine line => some line
  | _ => none

def noteLine? : Content → Option Line
  | noteLine line => some line
  | _ => none

end Content

/-! ### The pieces of statements and entries -/

def Argument.contents (a : Argument) : List Content :=
  a.label.toList.map (.token .argumentLabel) ++ a.value.tokens.map (.token .value)

def Comment.contents (c : Comment) : List Content := (linesOf c.text.toList).map .commentLine

def noteContents (note : Option String) : List Content :=
  note.toList.flatMap fun text => (linesOf text.toList).map .noteLine

/-- The children of a member are statements of their own. -/
def Member.contents : Member α → List Content
  | child _ => []
  | role label _ _ => [.token .roleLabel label]

def Closing.contents (closing : Closing) : List Content :=
  closing.comments.flatMap Comment.contents ++ noteContents closing.note

def Statement.contents (statement : Statement α) : List Content :=
  .token .command statement.command :: (statement.arguments.flatMap Argument.contents ++
    statement.members.flatMap Member.contents ++
    Closing.contents ⟨statement.comments, statement.note⟩)

/-- What a visitor is told by a call. The command word comes with its statement. -/
def Call.contents : Call Scope α → List Content
  | enter _ _ _ => []
  | leave statement _ _ => statement.contents
  | comment c => c.contents

def Call.entered? : Call Scope α → Option Token
  | enter command _ _ => some command
  | _ => none

namespace Entry

mutual

/-- What stands in an entry. -/
def contents : Entry → List Content
  | comment c => c.contents
  | role label _ items => .token .roleLabel label :: contentsAll items
  | statement command arguments body closing =>
    .token .command command :: (arguments.flatMap Argument.contents ++ contentsAll body ++
      closing.toList.flatMap Closing.contents)

def contentsAll : List Entry → List Content
  | [] => []
  | entry :: entries => contents entry ++ contentsAll entries

end

theorem contentsAll_append (xs ys : List Entry) :
    contentsAll (xs ++ ys) = contentsAll xs ++ contentsAll ys := by
  induction xs with
  | nil => rfl
  | cons x xs ih => rw [cons_append, contentsAll, ih, contentsAll, append_assoc]

theorem contentsAll_comments (cs : List Comment) :
    contentsAll (cs.map .comment) = cs.flatMap Comment.contents := by
  induction cs with
  | nil => rfl
  | cons c cs ih => rw [map_cons, contentsAll, contents, ih, flatMap_cons]

end Entry

/-! ### Commands among the pieces -/

/-- The commands among some pieces. -/
def commandsOf (cs : List Content) : List Token := cs.filterMap Content.command?

@[simp] theorem commandsOf_nil : commandsOf [] = [] := rfl

@[simp] theorem commandsOf_command (w : Token) (cs : List Content) :
    commandsOf (.token .command w :: cs) = w :: commandsOf cs := rfl

@[simp] theorem commandsOf_roleLabel (l : Token) (cs : List Content) :
    commandsOf (.token .roleLabel l :: cs) = commandsOf cs := rfl

@[simp] theorem commandsOf_append (cs cs' : List Content) :
    commandsOf (cs ++ cs') = commandsOf cs ++ commandsOf cs' :=
  filterMap_append

theorem commandsOf_eq_nil {cs : List Content} (h : ∀ c ∈ cs, c.command? = none) :
    commandsOf cs = [] :=
  filterMap_eq_nil_iff.mpr h

@[simp] theorem commandsOf_arguments (args : List Argument) :
    commandsOf (args.flatMap contents) = [] := by
  refine commandsOf_eq_nil fun c hc => ?_
  obtain ⟨a, -, hc⟩ := mem_flatMap.mp hc
  rcases mem_append.mp hc with hc | hc <;>
  · obtain ⟨t, -, rfl⟩ := mem_map.mp hc
    rfl

@[simp] theorem commandsOf_comments (cs : List Comment) :
    commandsOf (cs.flatMap Comment.contents) = [] := by
  refine commandsOf_eq_nil fun c hc => ?_
  obtain ⟨comment, -, hc⟩ := mem_flatMap.mp hc
  obtain ⟨line, -, rfl⟩ := mem_map.mp hc
  rfl

@[simp] theorem commandsOf_note (note : Option String) : commandsOf (noteContents note) = [] := by
  refine commandsOf_eq_nil fun c hc => ?_
  obtain ⟨text, -, hc⟩ := mem_flatMap.mp hc
  obtain ⟨line, -, rfl⟩ := mem_map.mp hc
  rfl

@[simp] theorem commandsOf_statement (w : Token) (args : List Argument) (body : List Entry)
    (closing : Closing) :
    commandsOf (Entry.statement w args body (some closing)).contents =
      w :: commandsOf (Entry.contentsAll body) := by
  simp [Entry.contents, Closing.contents]

/-! ### The calls of a visitor -/

/-- What has been told by some calls. -/
def told (calls : List (σ × Call Scope α)) : Multiset Content :=
  calls.flatMap fun x => x.2.contents

/-- The command words that have been entered. -/
def entered (calls : List (σ × Call Scope α)) : List Token := calls.filterMap fun x => x.2.entered?

theorem told_concat (calls : List (σ × Call Scope α)) (st : σ) (call : Call Scope α) :
    told (calls ++ [(st, call)]) = told calls + call.contents := by
  rw [told, flatMap_append, flatMap_singleton, ← Multiset.coe_add, told]

theorem entered_concat (calls : List (σ × Call Scope α)) (st : σ) (call : Call Scope α) :
    entered (calls ++ [(st, call)]) = entered calls ++ call.entered?.toList := by
  rw [entered, filterMap_append, entered]
  cases h : call.entered? <;> simp [h]

/-- Further calls tell some pieces, apart from the labels of roles, which are told with the
statement that they are handed on to. -/
structure Retells (calls : List (σ × Call Scope α)) (cs : List Content) (ms : List (Member α))
    (calls' : List (σ × Call Scope α)) : Prop where
  told : told calls' + ↑(ms.flatMap Member.contents) = told calls + ↑cs
  entered : entered calls' = entered calls ++ commandsOf cs

namespace Retells

variable {calls calls' calls'' : List (σ × Call Scope α)} {cs cs' : List Content}
  {ms ms' : List (Member α)}

theorem nil (calls : List (σ × Call Scope α)) : Retells calls [] ([] : List (Member α)) calls :=
  ⟨rfl, (append_nil _).symm⟩

theorem append (h : Retells calls cs ms calls') (h' : Retells calls' cs' ms' calls'') :
    Retells calls (cs ++ cs') (ms ++ ms') calls'' where
  told := by
    rw [flatMap_append, ← Multiset.coe_add, ← Multiset.coe_add, add_left_comm, h'.told,
      ← add_assoc (CommandText.told calls), ← h.told]
    abel
  entered := by rw [h'.entered, h.entered, commandsOf_append, append_assoc]

theorem contents_answer (answer : Option α) :
    (answer.toList.map Member.child).flatMap Member.contents = [] := by
  cases answer <;> rfl

theorem statement {command : Token} {enclosing : Option Scope} {scope : Scope} {st : σ}
    {body : List Entry}
    (h : Retells (calls ++ [(st, .enter command enclosing scope)]) (Entry.contentsAll body) ms
      calls') (args : List Argument) (closing : Closing) (isRoot : Bool) (answer : Option α)
    (st' : σ) :
    Retells calls (Entry.statement command args body (some closing)).contents
      (answer.toList.map .child) (calls' ++ [(st', .leave
        ⟨command, args, ms, closing.comments, closing.note, isRoot⟩ scope answer)]) where
  told := by
    have hbody := h.told
    rw [told_concat, Call.contents, Multiset.coe_nil, add_zero] at hbody
    rw [contents_answer, told_concat, Call.contents, Statement.contents, Entry.contents,
      Option.toList_some, flatMap_singleton]
    simp only [← Multiset.cons_coe, ← Multiset.coe_add, ← Multiset.singleton_add,
      Multiset.coe_nil, add_zero]
    calc CommandText.told calls' + ({.token .command command} + (↑(args.flatMap contents) +
          ↑(ms.flatMap Member.contents) + ↑closing.contents))
      _ = CommandText.told calls' + ↑(ms.flatMap Member.contents) + ({.token .command command} +
          ↑(args.flatMap contents) + ↑closing.contents) := by abel
      _ = CommandText.told calls + ({.token .command command} + (↑(args.flatMap contents) +
          ↑(Entry.contentsAll body) + ↑closing.contents)) := by
        rw [hbody]
        abel
  entered := by
    rw [entered_concat, h.entered, entered_concat, commandsOf_statement]
    simp [Call.entered?]

end Retells

namespace Shaped

theorem contents_members {cut : Bool} {es : List Entry} (h : Shaped cut false es)
    (v : Visitor σ Scope α) (enclosing : Option Scope) (st : σ) :
    (Entry.visitAll v enclosing es st).1.flatMap Member.contents = [] := by
  generalize hroles : false = inBlock at h
  induction h generalizing st with
  | nil => rfl
  | comment c _ ih => exact ih _ hroles
  | role | openRole => cases hroles
  | statement command args closing _ _ _ ih =>
    rw [Entry.visitAll_cons, flatMap_append, ih _ hroles, append_nil]
    exact Retells.contents_answer _
  | openStatement => rfl

theorem retells {inBlock : Bool} {es : List Entry} (h : Shaped false inBlock es)
    (v : Visitor σ Scope α) (enclosing : Option Scope) (st : σ)
    (calls : List (σ × Call Scope α)) :
    Retells calls (Entry.contentsAll es) (Entry.visitAll v.recorded enclosing es (st, calls)).1
      (Entry.visitAll v.recorded enclosing es (st, calls)).2.2 := by
  generalize hcut : false = cut at h
  induction h generalizing enclosing st calls with
  | nil => exact .nil calls
  | comment c _ ih =>
    rw [Entry.visitAll_cons, Entry.contentsAll]
    have hcomment : Retells calls (Entry.comment c).contents ([] : List (Member α))
        (calls ++ [(st, .comment c)]) := by
      refine ⟨(add_zero _).trans (told_concat calls st (.comment c)), ?_⟩
      rw [Entry.contents, ← flatMap_singleton Comment.contents c, commandsOf_comments]
      exact entered_concat calls st (.comment c)
    exact hcomment.append (ih _ _ _ hcut)
  | @role _ label list items _ hi _ ihi ih =>
    rw [Entry.visitAll_cons, Entry.contentsAll]
    obtain ⟨htold, hentered⟩ := ihi enclosing st calls rfl
    refine Retells.append ⟨?_, hentered⟩ (ih _ _ _ hcut)
    rw [hi.contents_members, Multiset.coe_nil, add_zero] at htold
    show told (Entry.visitAll v.recorded enclosing items (st, calls)).2.2 +
      {Content.token .roleLabel label} = _
    rw [htold, Entry.contents, ← Multiset.cons_coe, ← Multiset.singleton_add]
    abel
  | @statement _ _ command args closing body _ hb _ ihb ih =>
    rw [Entry.visitAll_cons, Entry.contentsAll]
    exact .append ((ihb _ _ _ rfl).statement args closing _ _ _) (ih _ _ _ hcut)
  | openRole | openStatement => cases hcut

end Shaped

end CommandText
