import CommandText.Editor.Brackets

/-!
# Outlines

From the lines that lead to the cursor, a document that can be read. The cursor's line is cut at
the cursor, the value that is being typed is removed, and every bracket that is still open is
closed. What was learned about the cursor's place on the way is kept beside the lines.

## Implementation notes

A role label can stand in front of its child on one line, alone on the line above, or in front of
an element list. Labels that stand alone do not count as statements: a cursor behind one looks
through all of them at the block around (`dropLabels`).
-/

namespace CommandText

/-- Why nothing but a block can follow at the cursor. -/
inductive CursorProblem
  /-- A value is complete, and no comma follows it yet. -/
  | missingComma
  /-- The cursor stands behind an opening brace. -/
  | afterBrace
deriving DecidableEq, Repr

/-- What surrounds the cursor. -/
structure CursorFlags where
  inArray : Bool := false
  inBlock : Bool := false
  afterLabel : Bool := false
  afterComma : Bool := false
  beforeBrace : Bool := false
  beforeBracket : Bool := false
deriving DecidableEq, Repr

/-- How the feature at the cursor is addressed. -/
inductive Role
  | label (name : String)
  /-- By its place among the unlabeled arguments. -/
  | place (index : Nat)
deriving DecidableEq, Repr

/-- A readable document that leads to the cursor. -/
structure Outline where
  lines : List Line := []
  /-- The number of elements on the path to the cursor. -/
  depth : Nat := 0
  role : Option Role := none
  /-- The part of a word or value that is typed already. -/
  typed : List Char := []
  problem : Option CursorProblem := none
  flags : CursorFlags := {}
deriving DecidableEq, Repr

/-! ### The cursor's line -/

/-- How many characters stand in front of a column. Without a column the cursor is at the end. -/
def cutAt (column : Option Nat) (line : Line) : Nat :=
  match column with
  | none => line.length
  | some c => min (c - 1) line.length

/-- Whether the first character that is not blank is a given one. -/
def startsWithMark (mark : Char) (line : Line) : Bool := (skipBlanks line).head? == some mark

/-- A line without an opening brace and the blanks behind it, if it ends so. -/
def dropOpenBrace? (line : Line) : Option Line :=
  match skipBlanks line.reverse with
  | '\x7b' :: rest => some rest.reverse
  | _ => none

def endsBlank (line : Line) : Bool := line.getLast?.any isBlank

/-- The name on a line that holds a label and nothing else. -/
def loneLabel? (line : Line) : Option String :=
  match (trim line).reverse with
  | ':' :: name =>
    let name := name.reverse
    if name.head?.any startsName && name.all isWord then some (String.ofList name) else none
  | _ => none

/-- The lines without the lone labels at their end. -/
def dropLabels (lines : List Line) : List Line :=
  (lines.reverse.dropWhile fun line => (loneLabel? line).isSome).reverse

/-- The lines without a lone label as the last of them. -/
def dropLabel (lines : List Line) : List Line :=
  if (lines.getLast?.bind loneLabel?).isSome then lines.dropLast else lines

/-! ### Closing what is open -/

/-- The brackets that some lines leave open, the innermost first. -/
def openBrackets (pattern : Pattern) (lines : List Line) : List Enclosure :=
  lines.reverse.flatMap (leftOpen pattern)

/-- Puts the cursor's line below some others and closes what those leave open. `own` counts the
elements of the cursor's line. -/
def Outline.close (pattern : Pattern) (above : List Line) (line : Line) (own : Nat) : Outline :=
  let brackets := openBrackets pattern above
  { lines := above ++ [line] ++ brackets.map fun e => [e.closer.char]
    depth := brackets.count .block + own }

/-! ### Roles -/

def withPrevious (tokens : List Token) : List (Option Token × Token) :=
  (none :: tokens.map some).zip tokens

/-- The label in front of the innermost list that is open behind some tokens, which are given from
the last to the first. `level` counts the brackets that were closed and not opened yet. Inside a
block there is none. -/
def listLabel? (level : Nat) : List (Option Token × Token) → Option String
  | [] => none
  | (before, t) :: rest =>
    if t.closes?.isSome then listLabel? (level + 1) rest
    else
      match t.opens?, level with
      | none, _ => listLabel? level rest
      | some _, level + 1 => listLabel? level rest
      | some .block, 0 => none
      | some .list, 0 => (before.filter (·.isKind .label)).map (·.text)

/-- The role label of a statement below some lines: one that stands alone on the last of them, or
the one of the innermost open list. -/
def statementLabel? (pattern : Pattern) (above : List Line) : Option String :=
  match above.getLast?.bind loneLabel? with
  | some name => some name
  | none => listLabel? 0 (above.flatMap (withPrevious ∘ lineTokens pattern)).reverse

/-! ### Places -/

def Outline.behindLabel (pattern : Pattern) (above : List Line) (name : String) (typed : List Char)
    (problem : Option CursorProblem) (flags : CursorFlags) : Outline :=
  { Outline.close pattern (dropLabels above) [] 0 with
    role := some (.label name), typed, problem, flags }

/-- The cursor stands where a statement starts. A part of its command word may be typed already. -/
def Outline.atStatement (pattern : Pattern) (above : List Line) (line : Line) (typed : List Char)
    (problem : Option CursorProblem) (flags : CursorFlags) : Outline :=
  { Outline.close pattern (dropLabel above) line 0 with
    role := (statementLabel? pattern above).map .label
    typed, problem, flags := { flags with inBlock := true } }

/-- A line that cannot hold an element. At the very top of a document it still takes commands. -/
def Outline.offPath? (above : List Line) : Option Outline :=
  if above.isEmpty then some { flags := { inBlock := true } } else none

/-! ### Arguments -/

/-- Whether a token may belong to a value that is being typed. -/
def Token.isPartial (t : Token) : Bool := t.isValue || t.isKind .error

/-- Whether a token goes on where another one ends, one of the two being no proper token. -/
def Token.isGluedTo (t before : Token) : Bool :=
  (match before.span, t.span with
    | some s, some r => s.last + 1 == r.first
    | _, _ => false) &&
    (before.isKind .error || t.isKind .error)

/-- The first of the tokens that are glued to a token, and the tokens in front of it. Those in front
of the token are given from the last to the first. -/
def firstGlued (t : Token) : List Token → Token × List Token
  | [] => (t, [])
  | before :: rest =>
    if t.isGluedTo before && before.isPartial then firstGlued before rest else (t, before :: rest)

/-- The part of a line that belongs to the value being typed, and the arguments in front of it. -/
def splitTyped (line : Line) (arguments : List Token) : List Char × List Token :=
  match arguments.reverse with
  | t :: rest =>
    if !endsBlank line && t.isPartial then
      let (start, before) := firstGlued t rest
      (line.drop ((start.span.map (·.first - 1)).getD 0), before.reverse)
    else ([], arguments)
  | [] => ([], [])

/-- What is known of an argument list up to a token. -/
structure ArgumentPlace where
  lists : Nat := 0
  label : Option String := none
  labelUsed : Bool := false
  /-- The commas outside of lists. -/
  commas : Nat := 0
deriving DecidableEq, Repr

namespace ArgumentPlace

def step (p : ArgumentPlace) (t : Token) : ArgumentPlace :=
  match t.lexeme with
  | .label name => { p with label := some name, labelUsed := true }
  | .punct .comma => if p.lists = 0 then { p with label := none, commas := p.commas + 1 } else p
  | .punct .openBracket => { p with lists := p.lists + 1 }
  | .punct .closeBracket =>
    if p.lists ≤ 1 then { p with lists := 0, label := none } else { p with lists := p.lists - 1 }
  | _ => p

end ArgumentPlace

def argumentPlace (arguments : List Token) : ArgumentPlace := arguments.foldl ArgumentPlace.step {}

/-- Whether a value must be followed by a comma before another argument can start. -/
def missesComma (line : Line) (typed : List Char) : Option Token → Bool
  | none => false
  | some t =>
    t.isPartial || (t.isPunct .closeBracket && (endsBlank line || !typed.isEmpty))

/-- How the argument behind some others is addressed. Unlabeled arguments come first, so behind a
labeled one no place counts. -/
def ArgumentPlace.role (p : ArgumentPlace) (last : Option Token) : Option Role :=
  match p.label with
  | some name => some (.label name)
  | none =>
    if !p.labelUsed && last.all fun t => t.isPunct .comma || t.isPunct .openBracket then
      some (.place p.commas)
    else none

def Outline.inArguments (pattern : Pattern) (above : List Line) (line : Line)
    (arguments : List Token) (problem : Option CursorProblem) (flags : CursorFlags) : Outline :=
  let (typed, before) := splitTyped line arguments
  let place := argumentPlace before
  let last := before.getLast?
  let missing := missesComma line typed last
  let line := line.take (line.length - typed.length) ++ List.replicate place.lists ']'
  { Outline.close pattern above line 1 with
    role := if missing then none else place.role last
    typed
    problem := problem <|> if missing then some .missingComma else none
    flags := { flags with
      inArray := place.lists != 0
      afterComma := last.any (·.isPunct .comma) } }

/-! ### All places -/

/-- The outline for a cursor at the end of a line. -/
def outlineAtEnd? (pattern : Pattern) (above : List Line) (line : Line)
    (problem : Option CursorProblem) (flags : CursorFlags) : Option Outline :=
  let tokens := lineTokens pattern line
  if (tokens.drop 1).any fun t => t.isKind .comment || t.isKind .note then none
  else
    match tokens with
    | [] =>
      match above.getLast?.bind loneLabel? with
      | some name => some (.behindLabel pattern above.dropLast name [] problem flags)
      | none => some (.atStatement pattern above line [] problem flags)
    | first :: rest =>
      match first.kind, rest with
      | .identifier, rest =>
        if rest.isEmpty && !endsBlank line then
          let typed := first.text.toList
          some (.atStatement pattern above (line.take (line.length - typed.length)) typed problem
            flags)
        else some (.inArguments pattern above line rest problem flags)
      | .label, [] => some (.behindLabel pattern above first.text [] problem flags)
      | .label, second :: more =>
        if more.isEmpty && second.isPunct .openBracket then
          some (.behindLabel pattern above first.text [] problem { flags with inArray := true })
        else if second.isKind .identifier then
          if more.isEmpty && !endsBlank line then
            some (.behindLabel pattern above first.text second.text.toList problem
              { flags with inBlock := true })
          else some (.inArguments pattern above line more problem flags)
        else Outline.offPath? above
      | _, _ => Outline.offPath? above

/-- The outline for a cursor at a column of the last of some lines. There is none if the cursor's
line is no place for an element, such as a comment or a closing bracket. -/
def outline? (pattern : Pattern) (lines : List Line) (column : Option Nat) : Option Outline :=
  match lines.getLast? with
  | none => none
  | some last =>
    let cut := cutAt column last
    let tail := last.drop cut
    let line := last.take cut
    let flags : CursorFlags :=
      { beforeBrace := startsWithMark '\x7b' tail, beforeBracket := startsWithMark '[' tail }
    match dropOpenBrace? line with
    | some line => outlineAtEnd? pattern lines.dropLast line (some .afterBrace) flags
    | none => outlineAtEnd? pattern lines.dropLast line none flags

end CommandText
