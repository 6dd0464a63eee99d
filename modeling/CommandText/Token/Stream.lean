import CommandText.Text.Lines
import CommandText.Token.Scan

/-!
# The tokens of a text

A text is read line by line. A line whose first character is `#` or `@` is a comment or a note as a
whole, unless it continues the line above; any other line is scanned from left to right. Each run
of tokens that is not continued on the next line ends with a newline token.

## Implementation notes

`scanFrom` recurses on the characters of the line. A token takes its first character and leaves the
number of characters to pass over to the recursive call, so that no length has to be shown to
decrease.
-/

namespace CommandText

structure LineTokens where
  number : Nat
  tokens : List Token
  /-- The line above ends with a continuation. -/
  joined : Bool
  /-- The line itself ends with a continuation. -/
  continues : Bool
deriving DecidableEq, Repr

/-- The tokens from a column on, after passing over `skip` characters, and whether the line ends
with a continuation. -/
def scanFrom (pattern : Pattern) (line : Nat) : Nat → Nat → List Char → List Token × Bool
  | _, _, [] => ([], false)
  | column, skip + 1, _ :: cs => scanFrom pattern line (column + 1) skip cs
  | column, 0, c :: cs =>
    match scan pattern (c :: cs) with
    | .continuation => ([], true)
    | .blanks length => scanFrom pattern line (column + 1) (length - 1) cs
    | .token lexeme length =>
      let (tokens, continues) := scanFrom pattern line (column + 1) (length - 1) cs
      (⟨lexeme, line, some ⟨column, column + length - 1⟩⟩ :: tokens, continues)

/-- The token of a line that is a comment or a note as a whole. -/
def wholeLine? (number : Nat) (line : Line) : Option Token :=
  let indent := (line.takeWhile isBlank).length
  let span := some ⟨indent + 1, line.length⟩
  match skipBlanks line with
  | '#' :: cs => some ⟨.comment (String.ofList cs), number, span⟩
  | '@' :: cs => some ⟨.note (String.ofList cs), number, span⟩
  | _ => none

def scanLine (pattern : Pattern) (index : Nat) (joined : Bool) (line : Line) : LineTokens :=
  let line := bareLine index line
  match if joined then none else wholeLine? (index + 1) line with
  | some token => ⟨index + 1, [token], joined, false⟩
  | none =>
    let (tokens, continues) := scanFrom pattern (index + 1) 1 0 line
    ⟨index + 1, tokens, joined, continues⟩

/-- The lines from an index on, scanned. -/
def scanLines (pattern : Pattern) : Nat → Bool → List Line → List LineTokens
  | _, _, [] => []
  | index, joined, line :: lines =>
    let scanned := scanLine pattern index joined line
    scanned :: scanLines pattern (index + 1) scanned.continues lines

/-- The tokens of some lines, with a newline token behind each run of them. `pending` says that a
run is open. -/
def assemble : Bool → List LineTokens → List Token
  | _, [] => []
  | pending, line :: lines =>
    let pending := pending || !line.tokens.isEmpty
    line.tokens ++
      if line.continues then assemble pending lines
      else if pending then ⟨.newline, line.number, none⟩ :: assemble false lines
      else assemble false lines

def tokenize (pattern : Pattern) (text : List Char) : List Token :=
  assemble false (scanLines pattern 0 false (linesOf text))

/-- Whether a line starts with an identifier and does not continue another. -/
def LineTokens.startsCommand (line : LineTokens) : Bool :=
  !line.joined && line.tokens.head?.any (·.isKind .identifier)

/-- How many lines of a text start a command. -/
def commandCount (pattern : Pattern) (text : List Char) : Nat :=
  (scanLines pattern 0 false (linesOf text)).countP LineTokens.startsCommand

end CommandText
