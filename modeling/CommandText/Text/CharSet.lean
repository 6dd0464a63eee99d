/-!
# Sets of characters

A set of characters is given by inclusive ranges of code points in increasing order, with a gap
between any two of them, so that equal sets have equal ranges.

## Implementation notes

The sets of a writing system have hundreds of ranges, and membership is asked for each character of
a text. The ranges are therefore kept in blocks, each with its last code point, so that most of them
are passed over without a look.
-/

namespace CommandText

/-- An inclusive range of code points. -/
abbrev CodeRange := Nat × Nat

/-- Whether a code point is in one of some ranges in increasing order. -/
def inRanges : List CodeRange → Nat → Bool
  | [], _ => false
  | range :: rest, n => if n < range.1 then false else n ≤ range.2 || inRanges rest n

/-- Joins a range to ranges in increasing order; ranges that touch it become one with it. -/
def addRange (range : CodeRange) : List CodeRange → List CodeRange
  | [] => [range]
  | other :: rest =>
    if range.2 + 1 < other.1 then range :: other :: rest
    else if other.2 + 1 < range.1 then other :: addRange range rest
    else addRange (min range.1 other.1, max range.2 other.2) rest

def lastCodePoint : Nat := 0x10FFFF

/-- The code points from a first one on that are in none of some ranges in increasing order. -/
def gaps (first : Nat) : List CodeRange → List CodeRange
  | [] => if first ≤ lastCodePoint then [(first, lastCodePoint)] else []
  | range :: rest =>
    if first < range.1 then (first, range.1 - 1) :: gaps (range.2 + 1) rest
    else gaps (range.2 + 1) rest

/-- Neighbouring ranges. -/
structure CharBlock where
  /-- The last code point of the last range. -/
  last : Nat
  ranges : List CodeRange
deriving Repr, DecidableEq

/-- A set of characters. -/
structure CharSet where
  /-- The ranges, in increasing order. -/
  blocks : List CharBlock
deriving Repr, DecidableEq, Inhabited

namespace CharSet

def blockSize : Nat := 24

/-- Cuts ranges into at most `n` blocks. -/
def cut : Nat → List CodeRange → List CharBlock
  | 0, _ | _, [] => []
  | n + 1, range :: rest =>
    let block := range :: rest.take (blockSize - 1)
    ⟨(block.getLastD range).2, block⟩ :: cut n (rest.drop (blockSize - 1))

/-- The set with some ranges, which are in increasing order with gaps between them. -/
def ofRanges (ranges : List CodeRange) : CharSet := ⟨cut ranges.length ranges⟩

/-- The ranges of a set, in increasing order with gaps between them. -/
def ranges (s : CharSet) : List CodeRange := s.blocks.flatMap CharBlock.ranges

/-- Whether a code point is in one of some blocks in increasing order. -/
def inBlocks : List CharBlock → Nat → Bool
  | [], _ => false
  | block :: rest, n => if n ≤ block.last then inRanges block.ranges n else inBlocks rest n

def contains (s : CharSet) (c : Char) : Bool := inBlocks s.blocks c.toNat

def empty : CharSet := ofRanges []

/-- The characters between two bounds, the bounds included. -/
def range (first last : Char) : CharSet := ofRanges [(first.toNat, last.toNat)]

def char (c : Char) : CharSet := range c c

def union (a b : CharSet) : CharSet := ofRanges (b.ranges.foldr addRange a.ranges)

def compl (a : CharSet) : CharSet := ofRanges (gaps 0 a.ranges)

def inter (a b : CharSet) : CharSet := compl (union (compl a) (compl b))

def diff (a b : CharSet) : CharSet := inter a (compl b)

/-- Every character but the line feed. -/
def any : CharSet := compl (char '\n')

/-- Whether the set has exactly one character. -/
def isSingle (s : CharSet) : Bool :=
  match s.ranges with
  | [(first, last)] => first == last
  | _ => false

end CharSet

end CommandText
