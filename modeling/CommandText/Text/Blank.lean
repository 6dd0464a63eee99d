import CommandText.Text.CharSet

/-!
# Blank characters

The characters that separate tokens: those with the Unicode property White_Space.
-/

namespace CommandText

/-- The characters with the Unicode property White_Space. -/
def CharSet.blank : CharSet := .ofRanges [(0x9, 0xD), (0x20, 0x20), (0x85, 0x85), (0xA0, 0xA0),
  (0x1680, 0x1680), (0x2000, 0x200A), (0x2028, 0x2029), (0x202F, 0x202F), (0x205F, 0x205F),
  (0x3000, 0x3000)]

/-- Whether a character has the Unicode property White_Space. -/
def isBlank (c : Char) : Bool := CharSet.blank.contains c

def skipBlanks (line : List Char) : List Char := line.dropWhile isBlank

def trim (line : List Char) : List Char :=
  (skipBlanks (skipBlanks line).reverse).reverse

/-- Every character that core counts as white space is blank. -/
theorem isBlank_of_isWhitespace {c : Char} (h : c.isWhitespace = true) : isBlank c = true := by
  simp only [Char.isWhitespace, Bool.or_eq_true, decide_eq_true_eq] at h
  rcases h with ((rfl | rfl) | rfl) | rfl <;> decide

end CommandText
