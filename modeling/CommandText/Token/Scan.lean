import CommandText.Pattern.Basic
import CommandText.Text.Blank
import CommandText.Text.Escape
import CommandText.Token.Basic

/-!
# The token at a place

What the characters at a place of a line say. The alternatives are tried in a fixed order, and the
reference pattern comes first, so that a schema can claim any text for references.

Numbers and the words `true` and `false` end at a word boundary: `12ab` holds no number. Behind a
digit or a letter that is the same as not being followed by a word character.
-/

namespace CommandText

/-- What stands at a place of a line, with its number of characters. -/
inductive Scan
  | token (lexeme : Lexeme) (length : Nat)
  | blanks (length : Nat)
  /-- A backslash behind which the line holds only blanks: the next line belongs to this one. -/
  | continuation
deriving DecidableEq, Repr

/-- A lexeme with the number of its characters. -/
abbrev Scanned := Lexeme × Nat

/-! ### References -/

/-- A match of the reference pattern. It may start behind the place, and what is passed over belongs
to the token, but not to its text. An empty match does not count. -/
def scanReference? (pattern : Pattern) (cs : List Char) : Option Scanned :=
  match pattern.find? cs with
  | some m =>
    if m.start < m.stop then
      some (.reference (String.ofList ((cs.take m.stop).drop m.start)), m.stop)
    else none
  | none => none

/-! ### Numbers -/

def splitSign : List Char → Option Char × List Char
  | '-' :: cs => (some '-', cs)
  | '+' :: cs => (some '+', cs)
  | cs => (none, cs)

/-- An exponent with its sign, and what follows it. -/
def splitExponent? : List Char → Option ((Char × List Char) × List Char)
  | 'e' :: sign :: cs =>
    let digits := cs.takeWhile Char.isDigit
    if (sign = '+' ∨ sign = '-') ∧ digits ≠ [] then
      some ((sign, digits), cs.dropWhile Char.isDigit)
    else none
  | _ => none

/-- A float literal at the start of a text, and what follows it. -/
def splitFloat? (cs : List Char) : Option (FloatLiteral × List Char) :=
  let (sign, rest) := splitSign cs
  let whole := rest.takeWhile Char.isDigit
  match rest.dropWhile Char.isDigit with
  | '.' :: rest =>
    let fraction := rest.takeWhile Char.isDigit
    let rest := rest.dropWhile Char.isDigit
    if whole = [] ∨ fraction = [] then none
    else
      match splitExponent? rest with
      | some (exponent, rest) => some (⟨sign, whole, fraction, some exponent⟩, rest)
      | none => some (⟨sign, whole, fraction, none⟩, rest)
  | _ => none

/-- Literals of more characters than this are kept as exact decimals. -/
def maxFloatLength : Nat := 16

def FloatLiteral.lexeme (l : FloatLiteral) : Lexeme :=
  if l.written.length ≤ maxFloatLength then .float l.toFloat else .long (.of l)

def scanFloat? (cs : List Char) : Option Scanned :=
  match splitFloat? cs with
  | some (literal, rest) =>
    if startsWithWord rest then none else some (literal.lexeme, literal.written.length)
  | none => none

/-- An integer of 64 bits; a greater one is an error that keeps the text. -/
def integerLexeme (n : Int) (written : List Char) : Lexeme :=
  if -Int.pow 2 63 ≤ n ∧ n < Int.pow 2 63 then .integer n else .error (String.ofList written)

def isHexDigit (c : Char) : Bool := (hexDigit? c).isSome

def ofHexDigits (digits : List Char) : Nat :=
  digits.foldl (fun n c => 16 * n + (hexDigit? c).getD 0) 0

def scanHex? : List Char → Option Scanned
  | '0' :: x :: cs =>
    let digits := cs.takeWhile isHexDigit
    if (x = 'x' ∨ x = 'X') ∧ digits ≠ [] ∧ startsWithWord (cs.dropWhile isHexDigit) = false then
      some (integerLexeme (ofHexDigits digits) ('0' :: x :: digits), digits.length + 2)
    else none
  | _ => none

def scanInteger? (cs : List Char) : Option Scanned :=
  let (sign, rest) := splitSign cs
  let digits := rest.takeWhile Char.isDigit
  if digits = [] ∨ startsWithWord (rest.dropWhile Char.isDigit) = true then none
  else
    let n : Int := ofDigits digits
    let written := sign.toList ++ digits
    some (integerLexeme (if sign = some '-' then -n else n) written, written.length)

/-! ### Strings and words -/

/-- The characters up to the closing quote. A backslash takes the next character with it. -/
def quoted? : List Char → Option (List Char)
  | [] => none
  | '"' :: _ => some []
  | ['\\'] => none
  | '\\' :: c :: cs => (quoted? cs).map ('\\' :: c :: ·)
  | c :: cs => (quoted? cs).map (c :: ·)

def scanString? : List Char → Option Scanned
  | '"' :: cs =>
    match quoted? cs with
    | some raw => some (.string (String.ofList (unescape raw)), raw.length + 2)
    | none => none
  | _ => none

def scanBoolean? : List Char → Option Scanned
  | 't' :: 'r' :: 'u' :: 'e' :: rest =>
    if startsWithWord rest then none else some (.boolean true, 4)
  | 'f' :: 'a' :: 'l' :: 's' :: 'e' :: rest =>
    if startsWithWord rest then none else some (.boolean false, 5)
  | _ => none

/-- The characters that identifiers and labels start with: ASCII letters and the underscore. -/
def startsName (c : Char) : Bool := c.isAlpha || c == '_'

/-- An identifier, or a label if a colon follows. -/
def scanWord? : List Char → Option Scanned
  | [] => none
  | c :: cs =>
    if startsName c then
      let word := c :: cs.takeWhile isWord
      match cs.dropWhile isWord with
      | ':' :: _ => some (.label (String.ofList word), word.length + 1)
      | _ => some (.identifier (String.ofList word), word.length)
    else none

/-! ### Punctuation, comments and generics -/

def scanPunct? : List Char → Option Scanned
  | [] => none
  | c :: _ => (Punct.ofChar? c).map fun p => (.punct p, 1)

/-- A comment reaches to the end of the line. -/
def scanComment? : List Char → Option Scanned
  | '#' :: cs => some (.comment (String.ofList cs), cs.length + 1)
  | _ => none

/-- The characters up to the first `%>`. -/
def upToPercent? : List Char → Option (List Char)
  | [] => none
  | '%' :: '>' :: _ => some []
  | c :: cs => (upToPercent? cs).map (c :: ·)

/-- A generic value between `<%` and `%>`, or else between `<` and `>`. -/
def scanGeneric? : List Char → Option Scanned
  | '<' :: cs =>
    let percent := match cs with
      | '%' :: cs => upToPercent? cs
      | _ => none
    match percent with
    | some inner => some (.generic (String.ofList inner), inner.length + 4)
    | none =>
      let inner := cs.takeWhile (· != '>')
      if inner.length < cs.length then
        some (.generic (String.ofList inner), inner.length + 2)
      else none
  | _ => none

/-- Whether a text is a backslash with only blanks behind it. -/
def isContinuation : List Char → Bool
  | '\\' :: cs => cs.all isBlank
  | _ => false

/-! ### All alternatives -/

/-- The alternatives before blanks, in order. -/
def scanSolid? (pattern : Pattern) (cs : List Char) : Option Scanned :=
  scanReference? pattern cs <|> scanFloat? cs <|> scanHex? cs <|> scanInteger? cs <|>
    scanString? cs <|> scanBoolean? cs <|> scanWord? cs <|> scanPunct? cs <|> scanComment? cs

/-- What stands at a place. A character with which nothing else starts is an error token. -/
def scan (pattern : Pattern) (cs : List Char) : Scan :=
  match scanSolid? pattern cs with
  | some (lexeme, length) => .token lexeme length
  | none =>
    let blanks := cs.takeWhile isBlank
    if blanks ≠ [] then .blanks blanks.length
    else
      match scanGeneric? cs with
      | some (lexeme, length) => .token lexeme length
      | none =>
        if isContinuation cs then .continuation
        else .token (.error (String.ofList (cs.take 1))) 1

end CommandText
