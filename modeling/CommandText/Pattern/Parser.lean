import CommandText.Decimal.Digits
import CommandText.Pattern.Basic
import CommandText.Pattern.Size
import CommandText.Text.Blank

/-!
# Reading patterns

The written form of patterns. Besides literal characters it has

* `.`, `^`, `$`, `\b`, `\B`, `\A`, `\z`,
* `\d`, `\s`, `\w` and their complements `\D`, `\S`, `\W`,
* escaped punctuation, `\n` and its like, and code points as `\x41`, `\u0041` or `\x{41}`,
* classes in brackets with ranges, complements, inner classes and the operators `&&`, `--`, `~~`,
* groups, with or without `?:` or a name, and alternatives,
* `*`, `+`, `?` and counts in braces, each made lazy by a `?` behind it.

Anything else behind a backslash or a `(?` is refused, and so are unbalanced brackets, a repetition
of nothing, bounds in the wrong order, a form that is nested too deeply and an expression that is
too large.

A pattern matches at the start of a text. It is read inside of `^(?:` and `)` for that, and as one
text with them: a pattern that closes this group and opens another one is a pattern too, and what
it has behind the group may match anywhere.

## Implementation notes

The readers of sequences and alternatives are loops that take the reader of their parts as an
argument, and one more than the number of characters as a bound on the number of their rounds. Only
groups and classes lead back to themselves, and they take the number of levels that are left.
-/

namespace CommandText

/-- The sets that can be named inside a class as `[:name:]`. -/
def CharSet.named : List (String × CharSet) :=
  let ofChars (ranges : List (Char × Char)) : CharSet :=
    .ofRanges (ranges.map fun (a, b) => (a.toNat, b.toNat))
  [("alnum", ofChars [('0', '9'), ('A', 'Z'), ('a', 'z')]),
    ("alpha", ofChars [('A', 'Z'), ('a', 'z')]),
    ("ascii", range '\x00' '\x7f'),
    ("blank", ofChars [('\t', '\t'), (' ', ' ')]),
    ("cntrl", ofChars [('\x00', '\x1f'), ('\x7f', '\x7f')]),
    ("digit", range '0' '9'),
    ("graph", range '!' '~'),
    ("lower", range 'a' 'z'),
    ("print", range ' ' '~'),
    ("punct", ofChars [('!', '/'), (':', '@'), ('[', '\x60'), ('\x7b', '~')]),
    ("space", ofChars [('\t', '\r'), (' ', ' ')]),
    ("upper", range 'A' 'Z'),
    ("word", ofChars [('0', '9'), ('A', 'Z'), ('_', '_'), ('a', 'z')]),
    ("xdigit", ofChars [('0', '9'), ('A', 'F'), ('a', 'f')])]

namespace Expression

/-- What a part of the written form stands for, with how deeply the part is nested. -/
structure Nested (α : Type) where
  value : α
  depth : Nat
deriving Repr

/-- A reader takes characters from the front of a text. -/
abbrev Reader (α : Type) := List Char → Option (α × List Char)

/-! ### Escapes -/

/-- The character with the code point that hexadecimal digits spell. -/
def charOfHex? (digits : List Char) : Option Char := do
  let ds ← digits.mapM hexDigit?
  let n := ds.foldl (fun n d => n * 16 + d) 0
  if digits.isEmpty || ¬ n.isValidChar then none else some (Char.ofNat n)

/-- A code point: a fixed number of hexadecimal digits, or any number of them in braces. -/
def readCodePoint (width : Nat) : Reader Char
  | '\x7b' :: cs =>
    match cs.dropWhile (· != '\x7d') with
    | [] => none
    | _ :: rest => (charOfHex? (cs.takeWhile (· != '\x7d'))).map (·, rest)
  | cs =>
    if cs.length < width then none else (charOfHex? (cs.take width)).map (·, cs.drop width)

/-- What a backslash and the characters behind it mean. -/
inductive Escape
  | char (c : Char)
  | set (s : CharSet)
  | anchor (a : Anchor)
deriving Repr, DecidableEq

def readEscape : Reader Escape
  | [] => none
  | c :: cs =>
    match c with
    | 'd' => some (.set .digit, cs)
    | 'D' => some (.set CharSet.digit.compl, cs)
    | 's' => some (.set .blank, cs)
    | 'S' => some (.set CharSet.blank.compl, cs)
    | 'w' => some (.set .word, cs)
    | 'W' => some (.set CharSet.word.compl, cs)
    | 'b' => some (.anchor .boundary, cs)
    | 'B' => some (.anchor .inside, cs)
    | 'A' => some (.anchor .start, cs)
    | 'z' => some (.anchor .stop, cs)
    | 'a' => some (.char '\x07', cs)
    | 'f' => some (.char '\x0c', cs)
    | 'n' => some (.char '\n', cs)
    | 'r' => some (.char '\r', cs)
    | 't' => some (.char '\t', cs)
    | 'v' => some (.char '\x0b', cs)
    | 'x' => (readCodePoint 2 cs).map fun (c, rest) => (.char c, rest)
    | 'u' => (readCodePoint 4 cs).map fun (c, rest) => (.char c, rest)
    | 'U' => (readCodePoint 8 cs).map fun (c, rest) => (.char c, rest)
    | '<' => none
    | '>' => none
    | c => if c.toNat < 128 && !c.isAlphanum then some (.char c, cs) else none

/-! ### Classes -/

/-- One member of a class: a character, or a set that has no place in a range. -/
def readMember : Reader (Char ⊕ CharSet)
  | [] => none
  | '\\' :: cs =>
    match readEscape cs with
    | some (.char c, rest) => some (.inl c, rest)
    | some (.set s, rest) => some (.inr s, rest)
    | _ => none
  | c :: cs => some (.inl c, cs)

/-- A member of a class or a range between two of them. -/
def readRange (cs : List Char) : Option (CharSet × List Char) := do
  let (first, rest) ← readMember cs
  let single := match first with
    | .inl c => CharSet.char c
    | .inr s => s
  match rest with
  | [] => none
  | '-' :: ']' :: _ => some (single, rest)
  | '-' :: '-' :: _ => some (single, rest)
  | '-' :: after =>
    match first, ← readMember after with
    | .inl a, (.inl b, rest) => if a.toNat ≤ b.toNat then some (.range a b, rest) else none
    | _, _ => none
  | _ => some (single, rest)

/-- A set named as `[:name:]` or `[:^name:]`, read from behind the `[:`. -/
def readNamed (cs : List Char) : Option (CharSet × List Char) := do
  let (negated, cs) := match cs with
    | '^' :: cs => (true, cs)
    | cs => (false, cs)
  let set ← CharSet.named.lookup (String.ofList (cs.takeWhile Char.isAlpha))
  match cs.dropWhile Char.isAlpha with
  | ':' :: ']' :: rest => some (if negated then set.compl else set, rest)
  | _ => none

/-- The members of a class read so far. -/
structure Members where
  set : CharSet
  count : Nat
  depth : Nat

namespace Members

def none : Members := ⟨.empty, 0, 0⟩

def add (m : Members) (item : Nested CharSet) : Members :=
  ⟨m.set.union item.value, m.count + 1, max m.depth item.depth⟩

/-- The set of all members; several of them form a level of their own. -/
def all (m : Members) : Nested CharSet := ⟨m.set, if 1 < m.count then m.depth + 1 else m.depth⟩

end Members

/-- The dashes at the start of a class stand for themselves, and so does a closing bracket as its
very first character. -/
def readClassStart (cs : List Char) : Members × List Char :=
  match cs.takeWhile (· == '-'), cs.dropWhile (· == '-') with
  | [], ']' :: rest => (Members.none.add ⟨.char ']', 0⟩, rest)
  | [], rest => (.none, rest)
  | dashes, rest => (⟨.char '-', dashes.length, 0⟩, rest)

def combine (op : CharSet → CharSet → CharSet) (a b : Nested CharSet) : Nested CharSet :=
  ⟨op a.value b.value, max a.depth b.depth + 1⟩

def symmetricDiff (a b : CharSet) : CharSet := .union (.diff a b) (.diff b a)

/-- The members of a class up to its closing bracket; `inner` reads a class inside it. `join` puts
what stood before the last operator together with the members read since. -/
def readMembers (inner : Reader (Nested CharSet)) :
    Nat → (Nested CharSet → Nested CharSet) → Members → Reader (Nested CharSet)
  | 0, _, _, _ | _, _, _, [] => none
  | _ + 1, join, m, ']' :: rest => some (join m.all, rest)
  | n + 1, join, m, '&' :: '&' :: rest =>
    readMembers inner n (combine .inter (join m.all)) .none rest
  | n + 1, join, m, '-' :: '-' :: rest =>
    readMembers inner n (combine .diff (join m.all)) .none rest
  | n + 1, join, m, '~' :: '~' :: rest =>
    readMembers inner n (combine symmetricDiff (join m.all)) .none rest
  | n + 1, join, m, '[' :: cs =>
    let named : Option (Nested CharSet × List Char) := match cs with
      | ':' :: cs => (readNamed cs).map fun (set, rest) => (⟨set, 0⟩, rest)
      | _ => none
    match named.or (inner cs) with
    | some (item, rest) => readMembers inner n join (m.add item) rest
    | none => none
  | n + 1, join, m, cs =>
    match readRange cs with
    | some (item, rest) => readMembers inner n join (m.add ⟨item, 0⟩) rest
    | none => none

/-- A class, read from behind its opening bracket, with at most `level` classes inside of each
other. -/
def readClass : Nat → Reader (Nested CharSet)
  | 0, _ => none
  | level + 1, cs =>
    let (negated, cs) := match cs with
      | '^' :: cs => (true, cs)
      | cs => (false, cs)
    let (m, rest) := readClassStart cs
    (readMembers (readClass level) (rest.length + 1) id m rest).map fun (set, rest) =>
      (⟨if negated then set.value.compl else set.value, set.depth + 1⟩, rest)

/-! ### Counts -/

/-- A decimal number with blanks around it. It has to fit into 32 bits. -/
def readCount (cs : List Char) : Option (Nat × List Char) :=
  let cs := skipBlanks cs
  let digits := cs.takeWhile Char.isDigit
  let n := digits.foldl (fun n d => n * 10 + (d.toNat - '0'.toNat)) 0
  if digits.isEmpty || Nat.pow 2 32 ≤ n then none
  else some (n, skipBlanks (cs.dropWhile Char.isDigit))

/-- The bounds of a repetition, read from behind the opening brace. -/
def readCounts (cs : List Char) : Option ((Nat × Option Nat) × List Char) := do
  let (low, rest) ← readCount cs
  match rest with
  | '\x7d' :: rest => some ((low, some low), rest)
  | ',' :: rest =>
    match skipBlanks rest with
    | '\x7d' :: rest => some ((low, none), rest)
    | rest =>
      let (high, rest) ← readCount rest
      match rest with
      | '\x7d' :: rest => if low ≤ high then some ((low, some high), rest) else none
      | _ => none
  | _ => none

/-- The repetition operator at the start of a text, as low and high bound; `none` if the text does
not start with one, `some none` if it starts with one that cannot be read. -/
def readBounds : List Char → Option (Option ((Nat × Option Nat) × List Char))
  | '*' :: rest => some (some ((0, none), rest))
  | '+' :: rest => some (some ((1, none), rest))
  | '?' :: rest => some (some ((0, some 1), rest))
  | '\x7b' :: rest => some (readCounts rest)
  | _ => none

/-- Repetition operators behind an expression. -/
def readRepeats : Nat → Nested Expression → Reader (Nested Expression)
  | 0, _, _ => none
  | n + 1, a, cs =>
    match readBounds cs with
    | none => some (a, cs)
    | some none => none
    | some (some ((low, high), rest)) =>
      match rest with
      | '?' :: rest => readRepeats n ⟨repeated low high false a.value, a.depth + 1⟩ rest
      | rest => readRepeats n ⟨repeated low high true a.value, a.depth + 1⟩ rest

/-! ### Groups, sequences and alternatives -/

/-- Several parts put together, which form a level of their own; a single one stays as it is. -/
def gather (join : List Expression → Expression) : List (Nested Expression) → Nested Expression
  | [] => ⟨empty, 0⟩
  | [a] => a
  | as => ⟨join (as.map (·.value)), (as.map (·.depth)).foldl max 0 + 1⟩

/-- Parts up to a bar, a closing parenthesis or the end, behind those already read; `part` reads
what a repetition operator applies to. -/
def readParts (part : Char → Reader (Nested Expression)) :
    Nat → List (Nested Expression) → Reader (Nested Expression)
  | 0, _, _ => none
  | _ + 1, read, [] => some (gather concat read.reverse, [])
  | n + 1, read, c :: cs =>
    if c = '|' || c = ')' then some (gather concat read.reverse, c :: cs)
    else
      match part c cs with
      | none => none
      | some (a, rest) =>
        match readRepeats n a rest with
        | none => none
        | some (a, rest) => readParts part n (a :: read) rest

/-- Alternatives up to a closing parenthesis or the end, behind those already read. -/
def readAlternatives (part : Char → Reader (Nested Expression)) :
    Nat → List (Nested Expression) → Reader (Nested Expression)
  | 0, _, _ => none
  | n + 1, read, cs =>
    match readParts part (n + 1) [] cs with
    | some (a, '|' :: rest) => readAlternatives part n (a :: read) rest
    | some (a, rest) => some (gather oneOf (a :: read).reverse, rest)
    | none => none

/-- The start of a group behind its opening parenthesis: nothing, `?:`, or a name in angle
brackets; and whether the group is told apart from others. -/
def readGroupStart : Reader Bool
  | '?' :: ':' :: cs => some (false, cs)
  | '?' :: 'P' :: '<' :: cs => name cs
  | '?' :: '<' :: cs => name cs
  | '?' :: _ => none
  | cs => some (true, cs)
where
  /-- Drops a name and the bracket behind it. -/
  name (cs : List Char) : Option (Bool × List Char) :=
    match cs.takeWhile isWord, cs.dropWhile isWord with
    | c :: _, '>' :: rest => if isDigit c then none else some (true, rest)
    | _, _ => none

/-- What a repetition operator applies to: a group, a class, an escape or one character. There are
at most `level` groups or classes inside of each other. A group is marked by what is left of the
text where it starts. -/
def readPart : Nat → Char → Reader (Nested Expression)
  | 0, _, _ => none
  | level + 1, c, cs =>
    match c with
    | '(' =>
      match readGroupStart cs with
      | none => none
      | some (marked, inner) =>
        match readAlternatives (readPart level) (inner.length + 1) [] inner with
        | some (a, ')' :: rest) =>
          some (⟨if marked then group cs.length a.value else a.value, a.depth + 1⟩, rest)
        | _ => none
    | '[' => (readClass level cs).map fun (set, rest) => (⟨one set.value, set.depth⟩, rest)
    | '\\' =>
      (readEscape cs).map fun
        | (.char c, rest) => (⟨one (.char c), 0⟩, rest)
        | (.set s, rest) => (⟨one s, 0⟩, rest)
        | (.anchor a, rest) => (⟨anchor a, 0⟩, rest)
    | '.' => some (⟨one .any, 0⟩, cs)
    | '^' => some (⟨anchor .start, 0⟩, cs)
    | '$' => some (⟨anchor .stop, 0⟩, cs)
    | '*' => none
    | '+' => none
    | '?' => none
    | '\x7b' => none
    | c => some (⟨one (.char c), 0⟩, cs)

/-- How deeply a written form may be nested. -/
def maxDepth : Nat := 250

/-- The expression that a text spells, if it spells one. -/
def ofText? (text : List Char) : Option Expression :=
  match readAlternatives (readPart (maxDepth + 1)) (text.length + 1) [] text with
  | some (e, []) => if e.depth ≤ maxDepth && e.value.isSmall then some e.value else none
  | _ => none

end Expression

/-- The pattern that a text spells, if it spells one. -/
def Pattern.ofText? (text : List Char) : Option Pattern :=
  (Expression.ofText? ("^(?:".toList ++ text ++ [')'])).map .ofExpression

end CommandText
