import CommandText.Token.Stream

/-!
# Open brackets

The brackets of a line that have no partner on it. Braces enclose the block of a command, and
square brackets enclose a list of values or of elements.

A closing bracket is a partner of the last open one only if both are of one sort. Otherwise it
closes a bracket of an earlier line, and the open one stays open.
-/

namespace CommandText

/-- What brackets enclose. -/
inductive Enclosure
  | block
  | list
deriving DecidableEq, Repr

namespace Enclosure

def closer : Enclosure → Punct
  | block => .closeBrace
  | list => .closeBracket

end Enclosure

namespace Token

def opens? (t : Token) : Option Enclosure :=
  match t.lexeme with
  | .punct .openBrace => some .block
  | .punct .openBracket => some .list
  | _ => none

def closes? (t : Token) : Option Enclosure :=
  match t.lexeme with
  | .punct .closeBrace => some .block
  | .punct .closeBracket => some .list
  | _ => none

end Token

/-- The brackets of a line without a partner on it. -/
structure Unbalanced where
  /-- The closing brackets, the latest first. -/
  closed : List Enclosure := []
  /-- The opening brackets, the innermost first. -/
  opened : List Enclosure := []
deriving DecidableEq, Repr

namespace Unbalanced

def close (u : Unbalanced) (e : Enclosure) : Unbalanced :=
  match u.opened with
  | top :: below =>
    if top = e then { u with opened := below } else { u with closed := e :: u.closed }
  | [] => { u with closed := e :: u.closed }

def step (u : Unbalanced) (t : Token) : Unbalanced :=
  match t.opens?, t.closes? with
  | some e, _ => { u with opened := e :: u.opened }
  | none, some e => u.close e
  | none, none => u

end Unbalanced

def unbalanced (tokens : List Token) : Unbalanced := tokens.foldl Unbalanced.step {}

def lineTokens (pattern : Pattern) (line : Line) : List Token :=
  (tokenize pattern line).filter fun t => !t.isKind .newline

def leftOpen (pattern : Pattern) (line : Line) : List Enclosure :=
  (unbalanced (lineTokens pattern line)).opened

end CommandText
