import CommandText.Editor.Context

/-!
# Links

The value under the cursor, with the element and the feature that it belongs to. A link leads
forward, to what the value names, or backward, to what refers to the element that the value names.
-/

namespace CommandText

structure Link where
  model : Model
  element : ElementId
  feature : Option FeatureId
  /-- The place of the value in its list; zero outside of lists. -/
  index : Nat
  /-- Whether the value names its own element. -/
  backward : Bool
  value : String
  span : Span
deriving DecidableEq, Repr

/-- Whether text in front of a token leaves it the command word, or a part of it. -/
def isCommandWord (before : List Char) : Bool := (skipBlanks before).all isWord

/-- Whether text in front of a token leaves it the command word or the first word behind it. -/
def isFirstWords (before : List Char) : Bool :=
  ((skipBlanks before).dropWhile isWord).all isBlank

/-- Whether tokens of a kind can be links. -/
def TokenKind.isLinkable : TokenKind → Bool
  | .reference | .integer | .string | .identifier => true
  | _ => false

/-- The numbers of values in the open lists, the innermost first, behind one more token. -/
def countValue (lists : List Nat) (t : Token) : List Nat :=
  match t.opens?, t.closes?, lists with
  | some .list, _, lists => 0 :: lists
  | _, some .list, lists => lists.drop 1
  | _, _, n :: outer => if t.isValue then (n + 1) :: outer else lists
  | _, _, [] => []

/-- The place in its list of a value behind some tokens. -/
def listIndex (before : List Token) : Nat := (before.foldl countValue []).headD 0

/-- Whether a value names its own element: the class says by which attribute. If it does not, the
first word does. -/
def isBackward (s : Schema) (c : ClassId) (feature : Option FeatureId) (t : Token)
    (before : List Char) : Bool :=
  match (s.classAt c).backward with
  | some name => feature.any fun f => (s.featureAt f).name == name
  | none => t.isKind .identifier && isFirstWords before

/-- Columns are counted modulo this number. -/
def columnLimit : Nat := Nat.pow 2 32

/-- The link at a column of the last of some lines. -/
def link? (s : Schema) (lines : List Line) (column : Nat) : Option Link := do
  let line := (← lines.getLast?) ++ [' ']
  let lines := lines.dropLast ++ [line]
  let outer ← context? s lines none
  let element ← outer.element
  let tokens := tokenize s.pattern line
  let index ← tokens.findIdx? (·.covers (column % columnLimit))
  let token ← tokens[index]?
  let span ← token.span
  if !token.kind.isLinkable then none
  let before := line.take (span.first - 1)
  let feature :=
    if isCommandWord before then none else (context? s lines (some span.first)).bind (·.feature)
  return {
    model := outer.model
    element, feature
    index := listIndex (tokens.take index)
    backward := isBackward s (outer.model.classOf element) feature token before
    value := token.text
    span }

end CommandText
