import CommandText.Editor.Completion
import CommandText.Editor.Link
import CommandText.Editor.OpenPath
import CommandText.Text.Units

/-!
# Whole documents

Completion, links and problems for a document as an editor shows it. Lines count from zero here,
and the offset in a line counts UTF-16 units.
-/

namespace CommandText

/-- A place in a document. -/
structure Position where
  line : Nat
  /-- The UTF-16 units in front of it. -/
  character : Nat
deriving DecidableEq, Repr

structure Range where
  start : Position
  stop : Position
deriving DecidableEq, Repr

/-- The number by which editors know a kind of completion. -/
def CompletionKind.code : CompletionKind → Nat
  | .command => 7
  | .label => 10
  | .value => 12
  | .reference => 18
  | .block => 15

/-- The lines of a document without their carriage returns. -/
def documentLines (text : List Char) : List Line := (linesOf text).map dropReturn

/-- The lines that lead to a place of a document, and the column of the place in the last of
them. -/
def pathTo? (text : List Char) (place : Position) : Option (List Line × Nat) :=
  let lines := openPath (documentLines text) place.line
  lines.getLast?.map fun last => (lines, charColumn last place.character)

def completeAt (s : Schema) (text : List Char) (place : Position) (options : CompletionOptions) :
    List Completion :=
  match pathTo? text place with
  | none => []
  | some (lines, column) =>
    match context? s lines (some column) with
    | none => []
    | some context => complete s context options

def linkAt (s : Schema) (text : List Char) (place : Position) : Option Link := do
  let (lines, column) ← pathTo? text place
  link? s lines column

def Link.range (link : Link) (line : Nat) (text : Line) : Range :=
  ⟨⟨line, unitOffset text (link.span.first - 1)⟩, ⟨line, unitOffset text link.span.last⟩⟩

/-- A problem as editors show it. -/
structure Diagnostic where
  range : Range
  message : String
deriving DecidableEq, Repr

/-- The offset that stands for the end of a line. -/
def lineEnd : Nat := Nat.pow 2 32 - 1

/-- A problem covers its whole line. -/
def Problem.diagnostic (p : Problem) : Diagnostic :=
  let line := p.line - 1
  ⟨⟨⟨line, 0⟩, ⟨line, lineEnd⟩⟩, p.message⟩

def diagnostics (s : Schema) (text : List Char) (file : Option String) : List Diagnostic :=
  (instantiateWith s { file } none () {} text).problems.map Problem.diagnostic

end CommandText
