import CommandText.Statement.Reading

/-!
# Reading statements

A text is a list of statements, each on lines of its own:

```
# comment lines
@note lines
Command value, label: value, label: [value, value] (   # comment
  Command
  role: Command
  role: [
    Command
  ]
)
```

with braces in place of the parentheses around a block.

## Implementation notes

The readers of repeated parts take a bound on their rounds. Every round takes at least one token,
apart from the first round of an argument or value list, so the number of unread tokens bounds them
all; `parse` starts with more than that.
-/

namespace CommandText

namespace ReadM

/-! ### Arguments -/

/-- What a value is called for as. -/
def valueKinds : List Expected := TokenKind.values.map .kind

/-- Whether a token belongs to an argument list. -/
def startsArgument (t : Token) : Bool :=
  t.isValue || t.isKind .label || t.isKind .error || t.isPunct .comma || t.isPunct .openBracket

/-- Whether a token belongs to a list of values. -/
def continuesList (t : Token) : Bool := t.isValue || t.isKind .error || t.isPunct .comma

/-- The values of a list, with commas between them. -/
def values : Nat → Bool → ReadM (List Token)
  | 0, _ => return []
  | bound + 1, isFirst => do
    if ← nextIs continuesList then
      unless isFirst do discard (consume [.punct .comma])
      let value ← consume valueKinds
      return value.toList ++ (← values bound false)
    else return []

/-- One value, or a list of values in brackets. -/
def argumentValue : ReadM (Option ArgumentValue) := do
  if ← nextIs (·.isPunct .openBracket) then
    discard (consume [.punct .openBracket])
    let tokens ← values ((← get).rest.length + 1) true
    discard (consume [.punct .closeBracket])
    return some (.list tokens)
  else return (← consume valueKinds).map .single

/-- One argument. A label counts as given even if no value follows it. -/
def argument : ReadM (Option Argument) := do
  if ← nextIs (·.isKind .label) then
    let label ← take
    return some ⟨label, (← argumentValue).getD (.list [])⟩
  else return (← argumentValue).map fun value => ⟨none, value⟩

/-- The arguments that come next, with commas between them. -/
def argumentRounds : Nat → Bool → ReadM (List Argument)
  | 0, _ => return []
  | bound + 1, isFirst => do
    if ← nextIs startsArgument then
      unless isFirst do discard (consume [.punct .comma])
      let arg ← argument
      return arg.toList ++ (← argumentRounds bound false)
    else return []

def arguments : ReadM (List Argument) := do
  argumentRounds ((← get).rest.length + 1) true

/-! ### Blocks and lists -/

/-- Entries with the comments that belong to the statement around them. -/
abbrev Body := List Entry × List Comment

/-- A block, given a reader for its members. -/
def block (members : ReadM Body) : ReadM Body := do
  discard (consume [.punct .openBrace])
  let header ← endComment
  lineEnd
  let (entries, comments) ← members
  discard (consume [.punct .closeBrace])
  return (entries, header ++ comments)

/-- A list of statements in brackets, given a reader for them. -/
def elementList (items : ReadM (List Entry)) : ReadM Body := do
  discard (consume [.punct .openBracket])
  let header ← endComment
  lineEnd
  let entries ← items
  discard (consume [.punct .closeBracket])
  let footer ← endComment
  lineEnd
  return (entries, header ++ footer)

/-- What follows a role label: a list of statements or one statement, which may stand on the next
line. -/
def roleBody (items : ReadM (List Entry)) (statement : ReadM (List Entry)) :
    ReadM (Bool × Body) := do
  if ← nextIs (·.isPunct .openBracket) then return (true, ← elementList items)
  else
    let header ← do
      if ← nextIs fun t => t.isKind .comment || t.isKind .newline then
        let header ← endComment
        lineEnd
        pure header
      else pure []
    return (false, ← statement, header)

/-! ### Statements -/

def joinLines (tokens : List Token) : String := String.intercalate "\n" (tokens.map (·.text))

def commentOf (kind : CommentKind) : List Token → List Comment
  | [] => []
  | t :: ts => [⟨kind, t.line, joinLines (t :: ts)⟩]

def noteOf : List Token → Option String
  | [] => none
  | t :: ts => some (joinLines (t :: ts))

/-- Comment and note lines above no command. Where there are none, the line is passed over. -/
def looseLines (comments notes : List Token) : ReadM (List Entry) := do
  if let some note := notes.head? then modify (·.miss .looseNote note.line true)
  if comments.isEmpty && notes.isEmpty then
    discard (consume [.kind .identifier])
    modify Reading.skipLine
  return (commentOf .loose comments).map .comment

/-- A command with its arguments and its block, given a reader for the members of the block and the
comment and note lines above it. -/
def command (members : ReadM Body) (above notes : List Token) : ReadM (List Entry) := do
  match ← consume [.kind .identifier] with
  | none =>
    modify Reading.resync
    return []
  | some word =>
    let args ← arguments
    let (body, inner) ← if ← nextIs (·.isPunct .openBrace) then block members else pure ([], [])
    let footer ← endComment
    lineEnd
    let closing := ⟨commentOf .above above ++ inner ++ footer, noteOf notes⟩
    return [.statement word args body (if (← get).halted then none else some closing)]

mutual

/-- A statement, or where `loose` allows it comment lines above no command. -/
def statement : Nat → Bool → ReadM (List Entry)
  | 0, _ => return []
  | bound + 1, loose => do
    let comments ← lineBlock .comment
    let notes ← lineBlock .note
    if (← get).halted then return []
    else if !(← nextIs (·.isKind .identifier)) && loose then looseLines comments notes
    else command (members bound) comments notes

/-- The members of a block up to its closing brace. -/
def members : Nat → ReadM Body
  | 0 => return ([], [])
  | bound + 1 => do
    if !(← nextIs fun t => !t.isPunct .closeBrace) then return ([], [])
    else if ← nextIs (·.isKind .label) then
      let label ← take
      let (list, entries, comments) ←
        roleBody (items (some .closeBracket) bound) (statement bound false)
      let (laterEntries, laterComments) ← members bound
      return (label.toList.map (.role · list entries) ++ laterEntries, comments ++ laterComments)
    else
      let entries ← statement bound true
      let (laterEntries, comments) ← members bound
      return (entries ++ laterEntries, comments)

/-- Statements up to a bracket, or up to the end of the text. -/
def items (stop : Option Punct) : Nat → ReadM (List Entry)
  | 0 => return []
  | bound + 1 => do
    if !(← nextIs fun t => !stop.any t.isPunct) then return []
    else
      let entries ← statement bound true
      return entries ++ (← items stop bound)

end

end ReadM

/-- The entries of a list of tokens, and the state in which reading them ended. -/
def readAll (tokens : List Token) : List Entry × Reading :=
  (ReadM.items none (2 * tokens.length + 2)).run { rest := tokens }

structure Parsed where
  entries : List Entry
  /-- The problems in the order in which they were found. -/
  problems : List Problem
deriving Repr

def parse (tokens : List Token) : Parsed :=
  let (entries, reading) := readAll tokens
  ⟨entries, reading.problems⟩

end CommandText
