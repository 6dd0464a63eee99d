import CommandText.Binding.Instantiate
import CommandText.Editor.Outline

/-!
# The context of the cursor

The outline of the lines to the cursor is turned into a model. The element at the cursor is the
innermost of the rebuilt path: each element of an outline has at most one child, so the path goes
down along first children.
-/

namespace CommandText

structure Context where
  model : Model
  element : Option ElementId
  /-- The feature that a value at the cursor belongs to. -/
  feature : Option FeatureId
  /-- The part of a word or value that is typed already. -/
  typed : List Char
  problem : Option CursorProblem
  flags : CursorFlags
  /-- The blanks in front of the cursor's line. -/
  lineIndent : List Char
  /-- The blanks of one level of indentation. -/
  indent : List Char
deriving DecidableEq, Repr

/-! ### Indentation -/

def leadingBlanks (line : Line) : List Char := line.takeWhile isBlank

def isBlankLine (line : Line) : Bool := line.all isBlank

/-- One level of indentation if the lines do not show one. -/
def stockIndent : List Char := [' ', ' ']

/-- What the second of two indentations adds to the first. -/
def addedIndent? (outer inner : List Char) : Option (List Char) :=
  if outer.isPrefixOf inner && outer.length < inner.length then some (inner.drop outer.length)
  else none

/-- One level of indentation, as the last two lines that are not blank show it. -/
def indentOf (lines : List Line) : List Char :=
  match (lines.filter (!isBlankLine ·)).reverse with
  | inner :: outer :: _ =>
    (addedIndent? (leadingBlanks outer) (leadingBlanks inner)).getD stockIndent
  | _ => stockIndent

/-! ### The element and its feature -/

/-- Follows first children down a number of steps. -/
def Model.descend (s : Schema) (m : Model) : Nat → Option ElementId → Option ElementId
  | 0, id => id
  | n + 1, id => m.descend s n (id.bind (m.firstChild s))

/-- The model of an outline and the element at the cursor. Outside of all elements nothing is
built. -/
def Outline.rebuild (s : Schema) (o : Outline) : Model × Option ElementId :=
  match o.depth with
  | 0 => ({}, none)
  | depth + 1 =>
    let built := instantiate s (List.intercalate ['\n'] o.lines)
    (built.model, built.model.descend s depth built.roots.head?)

/-- The feature of a class that a role addresses. -/
def Role.feature? (s : Schema) (c : ClassId) : Role → Option FeatureId
  | .place index => (s.unlabeledArguments c)[index]?
  | .label name => s.featureNamed? c name

def Role.isLabel : Role → Bool
  | .label _ => true
  | .place _ => false

/-- The context of a cursor at a column of the last of some lines. -/
def context? (s : Schema) (lines : List Line) (column : Option Nat) : Option Context :=
  (outline? s.pattern lines column).map fun o =>
    let (model, element) := o.rebuild s
    { model, element
      feature := do (← o.role).feature? s (model.classOf (← element))
      typed := o.typed
      problem := o.problem
      flags := { o.flags with afterLabel := o.role.any Role.isLabel }
      lineIndent := leadingBlanks (lines.getLast?.getD [])
      indent := indentOf lines }

end CommandText
