import CommandText.Pattern.Expression

/-!
# The size of expressions

How much room the automaton of an expression takes if it reads the bytes of texts in UTF-8. An
expression is written in a few characters and can still stand for millions of states, because
repetitions are written out and because a set like that of all word characters has hundreds of byte
sequences; there is a bound on the size for that reason.

The automaton exists in two forms. One reads a text from its start and keeps the bounds of groups,
and sets share their ends in it. The other reads from the end and needs no groups, and sets share
only what their byte sequences start with.

## Implementation notes

Repetitions are counted by multiplication, so that the size of an expression is known without its
automaton.
-/

namespace CommandText

/-! ### Byte sequences -/

/-- Byte ranges of which a character takes one byte each. -/
abbrev ByteSequence := List (Nat × Nat)

def singleByte (b : Nat) : Nat × Nat := (b, b)

/-- The bytes behind the first one of a character. -/
def trailingBytes : Nat × Nat := (0x80, 0xBF)

/-- The sequences for the numbers from `first` to `last`, written with six bits in each of `n`
trailing bytes and the other bits in a byte in front of them, to which `lead` is added. -/
def sequences (lead : Nat) : Nat → Nat → Nat → List ByteSequence
  | 0, first, last => [[(lead + first, lead + last)]]
  | n + 1, first, last =>
    let unit := Nat.pow 64 (n + 1)
    let (low, high) := (first / unit, last / unit)
    let (skipped, taken) := (first % unit, last % unit)
    let within (byte : Nat) (rest : List ByteSequence) : List ByteSequence :=
      rest.map (singleByte (lead + byte) :: ·)
    if low = high then within low (sequences 0x80 n skipped taken)
    else
      let bottom := if skipped = 0 then low else low + 1
      let top := if taken = unit - 1 then high + 1 else high
      (if skipped = 0 then [] else within low (sequences 0x80 n skipped (unit - 1))) ++
      (if bottom < top then
        [(lead + bottom, lead + top - 1) :: List.replicate (n + 1) trailingBytes] else []) ++
      (if taken = unit - 1 then [] else within high (sequences 0x80 n 0 taken))

/-- The code points that are written alike: the first and the last of them, what is added to the
first byte, and the number of bytes behind it. -/
def byteForms : List (CodeRange × Nat × Nat) :=
  [((0, 0x7F), 0, 0), ((0x80, 0x7FF), 0xC0, 1), ((0x800, 0xD7FF), 0xE0, 2),
    ((0xE000, 0xFFFF), 0xE0, 2), ((0x10000, lastCodePoint), 0xF0, 3)]

def rangeSequences (range : CodeRange) : List ByteSequence :=
  byteForms.flatMap fun (form, lead, n) =>
    let first := max range.1 form.1
    let last := min range.2 form.2
    if first ≤ last then sequences lead n first last else []

namespace CharSet

def byteSequences (s : CharSet) : List ByteSequence := s.ranges.flatMap rangeSequences

/-- Sequences in increasing order by their first ranges, each with what follows it. -/
def splitFirst : List ByteSequence → List ((Nat × Nat) × List ByteSequence)
  | [] => []
  | [] :: rest => splitFirst rest
  | (byte :: bytes) :: rest =>
    match splitFirst rest with
    | (other, tails) :: more =>
      if byte = other then (byte, bytes :: tails) :: more
      else (byte, [bytes]) :: (other, tails) :: more
    | [] => [(byte, [bytes])]

/-- What can still follow, for each start of a sequence that is not complete; a sequence has at most
`n` bytes. -/
def remainders : Nat → List ByteSequence → List (List ByteSequence)
  | 0, _ => []
  | n + 1, sequences =>
    match splitFirst sequences with
    | [] => []
    | ways => sequences :: ways.flatMap fun (_, tails) => remainders n tails

end CharSet

/-! ### Sizes -/

/-- The two forms of the automaton. -/
inductive Direction
  | forward
  | backward
deriving Repr, DecidableEq

def stateRoom : Nat := 32

def wayRoom : Nat := 4

def rangeRoom : Nat := 8

/-- The room for one character of a set. A single character is spelled out byte by byte. -/
def CharSet.room (d : Direction) (s : CharSet) : Nat :=
  let ranges := s.ranges
  if s.isSingle then stateRoom * s.byteSequences.flatten.length
  else if ranges.all (·.2 < 0x80) then 2 * stateRoom + rangeRoom * ranges.length
  else
    let all := s.byteSequences
    let starts := remainders 4 all
    let ways (starts : List (List ByteSequence)) : Nat :=
      (starts.flatMap splitFirst).length
    match d with
    | .forward =>
      let distinct := starts.eraseDups
      stateRoom * (distinct.length + 1) + rangeRoom * ways distinct
    | .backward => stateRoom * (ways starts + 2) + wayRoom * all.length

namespace Expression

def isAlt : Expression → Bool
  | alt _ _ => true
  | _ => false

def room (d : Direction) : Expression → Nat
  | empty => stateRoom
  | one set => set.room d
  | anchor _ => stateRoom
  | seq a b => a.room d + b.room d
  | alt a b =>
    a.room d + b.room d + wayRoom + if b.isAlt then 0 else 2 * stateRoom + wayRoom
  | group _ a => a.room d + if d = .forward then 2 * stateRoom else 0
  | rounds low none _ a =>
    let loop := stateRoom + 2 * wayRoom
    if 0 < low then low * a.room d + loop
    else if a.takesSome then a.room d + loop
    else a.room d + 2 * loop + stateRoom
  | rounds low (some high) _ a =>
    let round := a.room d
    let way := stateRoom + 2 * wayRoom
    if low = high then low * round
    else if low = 0 ∧ high = 1 then round + way + stateRoom
    else
      (if low = 0 then stateRoom else low * round) + (high - low) * (round + way) + stateRoom

/-- The room that a search takes besides the expression: the accepting state, the bounds of the
match, and the loop that passes over what stands before a match. -/
def searchRoom (d : Direction) (e : Expression) : Nat :=
  let skip := 3 * stateRoom + 2 * wayRoom + rangeRoom
  match d with
  | .forward => 3 * stateRoom + if e.startsText then stateRoom else skip
  | .backward => stateRoom + skip

def size (d : Direction) (e : Expression) : Nat := e.searchRoom d + e.room d

def maxSize : Nat := 10 * Nat.pow 2 20

/-- Whether both forms of the automaton are within the bound. -/
def isSmall (e : Expression) : Bool := e.size .forward ≤ maxSize && e.size .backward ≤ maxSize

end Expression

end CommandText
