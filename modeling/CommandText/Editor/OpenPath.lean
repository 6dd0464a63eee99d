import CommandText.Editor.Brackets

/-!
# The path to the cursor

Of a whole document, the lines that lead to the cursor: the headers of the blocks and lists that
are still open there, and the cursor's line. Closed blocks, statements beside the path, comments
and blank lines are left out. A role label that stands alone on its line is kept if it stands
directly above the cursor's line or above a header that is kept.
-/

namespace CommandText

/-- The tokens of a line that are neither comment nor note. References hold no brackets under the
stock pattern. -/
def codeTokens (line : Line) : List Token :=
  (lineTokens .stock line).filter fun t => !(t.isKind .comment || t.isKind .note)

/-- What is known of the lines below while a document is read upward. -/
structure Climb where
  /-- The blocks that are closed below and not opened yet. -/
  blocks : Nat := 0
  /-- The lists that are closed below and not opened yet. -/
  lists : Nat := 0
  /-- Whether the nearest line with code below was kept. -/
  adjacent : Bool := true
deriving DecidableEq, Repr

namespace Climb

def close (c : Climb) : Enclosure → Climb
  | .block => { c with blocks := c.blocks + 1 }
  | .list => { c with lists := c.lists + 1 }

/-- Passes an opening bracket. The flag says whether it is still open at the cursor. -/
def open? (c : Climb) : Enclosure → Climb × Bool
  | .block => if c.blocks = 0 then (c, true) else ({ c with blocks := c.blocks - 1 }, false)
  | .list => if c.lists = 0 then (c, true) else ({ c with lists := c.lists - 1 }, false)

/-- Passes opening brackets. The flag says whether one of them is still open at the cursor. -/
def openAll (c : Climb) : List Enclosure → Climb × Bool
  | [] => (c, false)
  | e :: rest =>
    let (c, isOpen) := c.open? e
    let (c, anyOpen) := c.openAll rest
    (c, isOpen || anyOpen)

/-- Passes the brackets of a line. The flag says whether the line leaves one open at the cursor. -/
def pass (c : Climb) (u : Unbalanced) : Climb × Bool :=
  (u.closed.foldl close c).openAll u.opened

/-- Whether everything that is closed below is opened below. -/
def isLevel (c : Climb) : Bool := c.blocks == 0 && c.lists == 0

end Climb

def isLoneLabel : List Token → Bool
  | [t] => t.isKind .label
  | _ => false

/-- The lines to keep of those above the cursor, both from the bottom up. -/
def climb (c : Climb) : List Line → List Line
  | [] => []
  | line :: above =>
    let tokens := codeTokens line
    if tokens.isEmpty then climb c above
    else
      let (passed, isHeader) := c.pass (unbalanced tokens)
      if isHeader then line :: climb { passed with adjacent := true } above
      else if isLoneLabel tokens && c.adjacent && passed.isLevel then
        line :: climb { passed with adjacent := false } above
      else climb { passed with adjacent := false } above

/-- The lines of a document that lead to a line, which is the last of them. A line that is not
there has none. -/
def openPath (lines : List Line) (cursor : Nat) : List Line :=
  match lines[cursor]? with
  | none => []
  | some line => (climb {} (lines.take cursor).reverse).reverse ++ [line]

end CommandText
