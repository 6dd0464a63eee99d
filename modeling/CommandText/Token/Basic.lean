import CommandText.Decimal.Exact

/-!
# Tokens

A token is a lexeme with its place in the text. Lines and columns count from one, and a span
includes both of its columns. The kind of a token is read off its lexeme, so that a token of some
kind always carries a value of that kind.
-/

namespace CommandText

/-- The punctuation of the notation. -/
inductive Punct
  | openBrace
  | closeBrace
  | openBracket
  | closeBracket
  | colon
  | comma
deriving Repr, DecidableEq

namespace Punct

def char : Punct → Char
  | openBrace => '\x7b'
  | closeBrace => '\x7d'
  | openBracket => '['
  | closeBracket => ']'
  | colon => ':'
  | comma => ','

def ofChar? : Char → Option Punct
  | '\x7b' => some openBrace
  | '\x7d' => some closeBrace
  | '[' => some openBracket
  | ']' => some closeBracket
  | ':' => some colon
  | ',' => some comma
  | _ => none

@[simp] theorem ofChar?_char (p : Punct) : ofChar? p.char = some p := by
  cases p <;> rfl

end Punct

/-- The sorts of tokens. A note is a line that annotates the command below it. -/
inductive TokenKind
  | identifier
  | integer
  | float
  | string
  | boolean
  | reference
  | label
  | comment
  | note
  | generic
  | newline
  | error
  | punctuation
deriving Repr, DecidableEq

namespace TokenKind

/-- The word that names the kind in problems. -/
def word : TokenKind → String
  | identifier => "identifier"
  | integer => "integer"
  | float => "float"
  | string => "string"
  | boolean => "boolean"
  | reference => "reference"
  | label => "label"
  | comment => "comment"
  | note => "annotation"
  | generic => "generic"
  | newline => "newline"
  | error => "error"
  | punctuation => "punctuation"

/-- The kinds that may stand as an argument value, in the order in which problems list them. -/
def values : List TokenKind :=
  [identifier, integer, float, string, boolean, reference, generic]

def isValue (k : TokenKind) : Bool := values.contains k

end TokenKind

/-- What a token says. Strings and generics are held without their delimiters. -/
inductive Lexeme
  | identifier (text : String)
  | integer (n : Int)
  | float (x : Float)
  /-- A float literal too long for a floating-point number. -/
  | long (x : LongFloat)
  | string (text : String)
  | boolean (b : Bool)
  | reference (text : String)
  | label (text : String)
  | comment (text : String)
  | note (text : String)
  | generic (text : String)
  | newline
  /-- A piece of text that is no token. -/
  | error (text : String)
  | punct (p : Punct)
deriving DecidableEq, Repr

namespace Lexeme

def kind : Lexeme → TokenKind
  | identifier _ => .identifier
  | integer _ => .integer
  | float _ => .float
  | long _ => .float
  | string _ => .string
  | boolean _ => .boolean
  | reference _ => .reference
  | label _ => .label
  | comment _ => .comment
  | note _ => .note
  | generic _ => .generic
  | newline => .newline
  | error _ => .error
  | punct _ => .punctuation

/-- Floating-point numbers are written without an exponent, and whole ones without a point. -/
def floatLayout : Layout := ⟨none, [], .up⟩

def text : Lexeme → String
  | identifier s | string s | reference s | label s | comment s | note s | generic s | error s => s
  | integer n => String.ofList (intText n)
  | float x => String.ofList (floatLayout.write x)
  | long x => x.text
  | boolean b => if b then "true" else "false"
  | newline => ""
  | punct p => String.singleton p.char

end Lexeme

/-- The columns from `first` to `last`. -/
structure Span where
  first : Nat
  last : Nat
deriving Repr, DecidableEq

/-- A lexeme with its place. Line ends have no columns. -/
structure Token where
  lexeme : Lexeme
  line : Nat
  span : Option Span
deriving DecidableEq, Repr

namespace Token

def kind (t : Token) : TokenKind := t.lexeme.kind

def text (t : Token) : String := t.lexeme.text

def isKind (t : Token) (k : TokenKind) : Bool := t.kind == k

def isPunct (t : Token) (p : Punct) : Bool := t.lexeme == .punct p

def isValue (t : Token) : Bool := t.kind.isValue

def covers (t : Token) (column : Nat) : Bool :=
  match t.span with
  | some s => s.first ≤ column && column ≤ s.last
  | none => false

end Token

end CommandText
