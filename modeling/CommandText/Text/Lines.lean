/-!
# Lines

Text is split at line feeds only. A carriage return at the end of a line belongs to the line end,
and a byte order mark may stand in front of the first line.
-/

namespace CommandText

/-- The characters of one line, without its line feed. -/
abbrev Line := List Char

/-- The lines of a text; the empty text has one empty line. -/
def linesOf (text : List Char) : List Line := text.splitOn '\n'

/-- A line without one carriage return at its end. -/
def dropReturn (line : Line) : Line :=
  if line.getLast? = some '\r' then line.dropLast else line

/-- A line without one byte order mark at its start. -/
def dropMark : Line → Line
  | '\ufeff' :: rest => rest
  | line => line

/-- What the scanner sees of the line at an index: the first line may carry a byte order mark. -/
def bareLine (index : Nat) (line : Line) : Line :=
  if index = 0 then dropMark (dropReturn line) else dropReturn line

end CommandText
