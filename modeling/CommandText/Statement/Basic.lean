import CommandText.Token.Basic

/-!
# Statements

A statement is a command word with arguments and perhaps a block of further statements. Reading a
text gives a list of entries: statements and the comments that stand above no statement. Inside a
block, a role label may stand in front of one statement or of a list of them.

Whoever works on the entries is a `Visitor`. It is told of a command word before the statements in
its block, and of the whole statement after them; what it answers to a statement is handed on as a
member of the enclosing statement.

## Implementation notes

A statement in which reading was given up has no `Closing`: its command word and the statements
read so far are still there, but a visitor is never told of it as a whole.
-/

namespace CommandText

inductive CommentKind
  /-- On the lines right above a command. -/
  | above
  /-- At the end of a line of a statement. -/
  | lineEnd
  /-- On lines above no command. -/
  | loose
deriving DecidableEq, Repr

structure Comment where
  kind : CommentKind
  line : Nat
  text : String
deriving DecidableEq, Repr

/-- One value, or a list of values in brackets. -/
inductive ArgumentValue
  | single (value : Token)
  | list (values : List Token)
deriving DecidableEq, Repr

def ArgumentValue.tokens : ArgumentValue → List Token
  | single value => [value]
  | list values => values

structure Argument where
  label : Option Token
  value : ArgumentValue
deriving DecidableEq, Repr

/-- What is known of a statement at its end. -/
structure Closing where
  comments : List Comment
  /-- The lines that annotate the statement. -/
  note : Option String
deriving DecidableEq, Repr

/-- What stands on the lines of a text, a block or an element list. -/
inductive Entry
  /-- A comment above no command. -/
  | comment (c : Comment)
  /-- Statements under a role label, which stand in brackets if `list` says so. Roles occur directly
  in blocks only. -/
  | role (label : Token) (list : Bool) (items : List Entry)
  /-- A command with its arguments and the entries of its block. -/
  | statement (command : Token) (arguments : List Argument) (body : List Entry)
      (closing : Option Closing)
deriving Repr

/-- A part of a block, with the visitor's answers in place of statements. -/
inductive Member (α : Type)
  | child (a : α)
  | role (label : Token) (children : List α) (list : Bool)
deriving DecidableEq, Repr

/-- The answer that stands without a role. -/
def Member.child? {α : Type} : Member α → Option α
  | child a => some a
  | role _ _ _ => none

/-- A statement whose block has been dealt with. -/
structure Statement (α : Type) where
  command : Token
  arguments : List Argument
  members : List (Member α)
  comments : List Comment
  note : Option String
  /-- No other statement encloses it. -/
  isRoot : Bool
deriving DecidableEq, Repr

/-- Someone who works through entries, with a state of their own. -/
structure Visitor (σ Scope α : Type) where
  /-- Takes a command word, given the scope of the enclosing statement, and gives its own scope. -/
  enter : Token → Option Scope → StateM σ Scope
  /-- Takes a statement with the scope given for its command word. -/
  leave : Statement α → Scope → StateM σ (Option α)
  /-- Takes a comment above no command. -/
  comment : Comment → StateM σ Unit

namespace Entry

variable {σ Scope α : Type}

mutual

/-- Works through one entry and gives the members that it contributes to the enclosing block. -/
def visit (v : Visitor σ Scope α) (enclosing : Option Scope) :
    Entry → StateM σ (List (Member α))
  | comment c => do
    v.comment c
    return []
  | role label list items => do
    let members ← visitAll v enclosing items
    return [.role label (members.filterMap Member.child?) list]
  | statement command arguments body closing => do
    let scope ← v.enter command enclosing
    let members ← visitAll v (some scope) body
    match closing with
    | none => return []
    | some closing =>
      let answer ← v.leave
        ⟨command, arguments, members, closing.comments, closing.note, enclosing.isNone⟩ scope
      return answer.toList.map .child

def visitAll (v : Visitor σ Scope α) (enclosing : Option Scope) :
    List Entry → StateM σ (List (Member α))
  | [] => return []
  | entry :: entries => do
    let first ← visit v enclosing entry
    let rest ← visitAll v enclosing entries
    return first ++ rest

end

end Entry

end CommandText
