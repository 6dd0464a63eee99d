import CommandText.Json.Basic

/-!
# Reading JSON

The text of exactly one value, with blanks around its parts. Numbers have no leading zeros, and
strings hold no control characters. A string with an escaped surrogate that is no half of a pair is
read, but it is no text.

## Implementation notes

The readers take a bound on the depth of their calls. Each call passes over at least one character,
so the length of the text is enough.
-/

namespace CommandText.Json

/-- A reader takes characters from the front of a text. -/
abbrev Reader (α : Type) := List Char → Option (α × List Char)

/-- The blanks of JSON. -/
def isGap (c : Char) : Bool := c == ' ' || c == '\n' || c == '\t' || c == '\r'

def skipGap (cs : List Char) : List Char := cs.dropWhile isGap

/-! ### Strings -/

/-- Four hexadecimal digits. -/
def readUnit : Reader Nat
  | a :: b :: c :: d :: rest => do
    let a ← hexDigit? a
    let b ← hexDigit? b
    let c ← hexDigit? c
    let d ← hexDigit? d
    some (4096 * a + 256 * b + 16 * c + d, rest)
  | _ => none

def isHighSurrogate (n : Nat) : Bool := 0xD800 ≤ n && n < 0xDC00

def isLowSurrogate (n : Nat) : Bool := 0xDC00 ≤ n && n < 0xE000

/-- The second half of a surrogate pair. -/
def readLowSurrogate : Reader Nat
  | '\\' :: 'u' :: rest =>
    match readUnit rest with
    | some (low, rest) => if isLowSurrogate low then some (low, rest) else none
    | none => none
  | _ => none

/-- A code point as one escaped unit or as a pair of surrogates, read from behind the `\u`. A
surrogate without the other half is no character, and is passed over alone. -/
def readCodePoint (cs : List Char) : Option (Option Char × List Char) := do
  let (unit, rest) ← readUnit cs
  if isHighSurrogate unit then
    match readLowSurrogate rest with
    | some (low, rest) =>
      some (some (Char.ofNat (0x10000 + (unit - 0xD800) * 0x400 + (low - 0xDC00))), rest)
    | none => some (none, rest)
  else if isLowSurrogate unit then some (none, rest)
  else some (some (Char.ofNat unit), rest)

def readEscape : Reader (Option Char)
  | '"' :: rest => some (some '"', rest)
  | '\\' :: rest => some (some '\\', rest)
  | '/' :: rest => some (some '/', rest)
  | 'b' :: rest => some (some '\x08', rest)
  | 'f' :: rest => some (some '\x0c', rest)
  | 'n' :: rest => some (some '\n', rest)
  | 'r' :: rest => some (some '\r', rest)
  | 't' :: rest => some (some '\t', rest)
  | 'u' :: rest => readCodePoint rest
  | _ => none

/-- The text of a string up to its closing quote. `read` are the characters before, the last one
first, as long as all escapes were characters. -/
def readText : Nat → Option (List Char) → Reader JsonText
  | _, _, [] => none
  | 0, _, _ => none
  | _ + 1, read, '"' :: rest => some (read.map fun cs => String.ofList cs.reverse, rest)
  | n + 1, read, '\\' :: rest =>
    match readEscape rest with
    | some (c, rest) => readText n (do some ((← c) :: (← read))) rest
    | none => none
  | n + 1, read, c :: rest =>
    if c.toNat < 32 then none else readText n (read.map (c :: ·)) rest

/-! ### Numbers -/

def readDigits (cs : List Char) : Option (List Char × List Char) :=
  let digits := cs.takeWhile Char.isDigit
  if digits.isEmpty then none else some (digits, cs.dropWhile Char.isDigit)

/-- The fraction behind a point, if there is a point. -/
def readFraction : Reader (List Char)
  | '.' :: rest => readDigits rest
  | cs => some ([], cs)

/-- The exponent behind an `e`, if there is one. -/
def readExponent : Reader (Option Int)
  | c :: rest =>
    if c = 'e' ∨ c = 'E' then do
      let (negative, rest) := match rest with
        | '-' :: rest => (true, rest)
        | '+' :: rest => (false, rest)
        | rest => (false, rest)
      let (digits, rest) ← readDigits rest
      let n : Int := ofDigits digits
      some (some (if negative then -n else n), rest)
    else some (none, c :: rest)
  | [] => some (none, [])

def readNumber (cs : List Char) : Option (NumberLiteral × List Char) := do
  let (negative, rest) := match cs with
    | '-' :: rest => (true, rest)
    | rest => (false, rest)
  let (whole, rest) ← readDigits rest
  if whole.head? = some '0' ∧ whole ≠ ['0'] then none
  else
    let (fraction, rest) ← readFraction rest
    let (exponent, rest) ← readExponent rest
    some (⟨negative, whole, fraction, exponent⟩, rest)

/-! ### Values -/

def readWord (word : List Char) (value : Json) (cs : List Char) : Option (Json × List Char) :=
  if word.isPrefixOf cs then some (value, cs.drop word.length) else none

mutual

/-- A value, with blanks in front of it. -/
def readValue : Nat → Reader Json
  | 0, _ => none
  | n + 1, cs =>
    match skipGap cs with
    | 'n' :: rest => readWord ['u', 'l', 'l'] null rest
    | 't' :: rest => readWord ['r', 'u', 'e'] (bool true) rest
    | 'f' :: rest => readWord ['a', 'l', 's', 'e'] (bool false) rest
    | '"' :: rest => (readText rest.length (some []) rest).map fun (s, rest) => (string s, rest)
    | '[' :: rest =>
      match skipGap rest with
      | ']' :: rest => some (array [], rest)
      | _ => (readItems n rest).map fun (items, rest) => (array items, rest)
    | '\x7b' :: rest =>
      match skipGap rest with
      | '\x7d' :: rest => some (object [], rest)
      | _ => (readFields n rest).map fun (fields, rest) => (object fields, rest)
    | rest => (readNumber rest).map fun (l, rest) => (number l, rest)

/-- The items of an array up to its closing bracket. -/
def readItems : Nat → Reader (List Json)
  | 0, _ => none
  | n + 1, cs =>
    match readValue n cs with
    | none => none
    | some (item, rest) =>
      match skipGap rest with
      | ']' :: rest => some ([item], rest)
      | ',' :: rest => (readItems n rest).map fun (items, rest) => (item :: items, rest)
      | _ => none

/-- The fields of an object up to its closing brace. -/
def readFields : Nat → Reader (List (JsonText × Json))
  | 0, _ => none
  | n + 1, cs =>
    match skipGap cs with
    | '"' :: rest =>
      match readText rest.length (some []) rest with
      | none => none
      | some (key, rest) =>
        match skipGap rest with
        | ':' :: rest =>
          match readValue n rest with
          | none => none
          | some (value, rest) =>
            match skipGap rest with
            | '\x7d' :: rest => some ([(key, value)], rest)
            | ',' :: rest =>
              (readFields n rest).map fun (fields, rest) => ((key, value) :: fields, rest)
            | _ => none
        | _ => none
    | _ => none

end

/-- The value that a text writes, if it writes exactly one. -/
def ofText? (text : List Char) : Option Json :=
  match readValue (text.length + 1) text with
  | some (value, rest) => if (skipGap rest).isEmpty then some value else none
  | none => none

end CommandText.Json
