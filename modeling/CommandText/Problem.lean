import CommandText.Token.Basic

/-!
# Problems

What is wrong with a text. Problems are collected and never stop the work on a text: every function
that finds some also returns what it could make of the rest.
-/

namespace CommandText

/-- What a place in a statement calls for. -/
inductive Expected
  | kind (k : TokenKind)
  | punct (p : Punct)
deriving DecidableEq, Repr

namespace Expected

def fits (t : Token) : Expected → Bool
  | kind k => t.isKind k
  | punct p => t.isPunct p

def text : Expected → String
  | kind k => k.word
  | punct p => String.singleton p.char

end Expected

/-- Why a text, or a part of it, cannot be used as it stands. -/
inductive Fault
  /-- The text ends where something is called for. -/
  | unexpectedEnd (expected : List Expected)
  /-- A piece of text is no token. -/
  | badToken (text : String)
  | unexpected (found : Lexeme) (expected : List Expected)
  /-- A note stands above no command. -/
  | looseNote
  /-- Too many places in a row called for something else. -/
  | stuck
  | unknownCommand (word : String)
  | notOnRootLevel (word : String)
  | notInContext (word : String)
  | abstractClass (word className : String)
  | commentRefused
  | noteRefused
  | looseCommentRefused
  /-- More unlabeled arguments are given than the class has. -/
  | extraArgument (count : Nat)
  | unknownArgument (name : String)
  | childrenOnly (name : String)
  | argumentRepeated (name : String)
  | singleValueOnly (name : String)
  | genericRefused
  | wrongKind (name : String) (found : TokenKind) (expected : List TokenKind)
  | wrongLiteral (name literal : String) (literals : List String)
  | unknownRole (name : String)
  | noChildrenIn (name : String)
  | notContained (word : String)
  | ambiguousRole
  | wrongClass (name className : String) (expected : List String)
  | singleChildOnly (name : String)
  | containedElsewhere
deriving DecidableEq, Repr

def commaList (texts : List String) : String := String.intercalate ", " texts

namespace Fault

/-- A token in a message: its kind and, unless it is a line end, its text in quotes. -/
def describe : Lexeme → String
  | .newline => TokenKind.newline.word
  | l => l.kind.word ++ " '" ++ l.text ++ "'"

def message : Fault → String
  | unexpectedEnd expected =>
    "Unexpected end of file, expected " ++ commaList (expected.map (·.text))
  | badToken text => "Parse error on token '" ++ text ++ "'"
  | unexpected found expected =>
    "Unexpected " ++ describe found ++ ", expected " ++ commaList (expected.map (·.text))
  | looseNote => "Annotation without command"
  | stuck => "Internal error"
  | unknownCommand word => "Unknown command '" ++ word ++ "'"
  | notOnRootLevel word => "Command '" ++ word ++ "' cannot be used on root level"
  | notInContext word => "Command '" ++ word ++ "' cannot be used in this context"
  | abstractClass word className =>
    "Command '" ++ word ++ "' names abstract class '" ++ className ++ "'"
  | commentRefused => "Element can not take this comment"
  | noteRefused => "Annotation not allowed"
  | looseCommentRefused => "Unassociated comment not allowed"
  | extraArgument count =>
    "Unexpected unlabeled argument, " ++ String.ofList (toDigits count) ++
      " unlabeled arguments expected"
  | unknownArgument name => "Unknown argument '" ++ name ++ "'"
  | childrenOnly name => "Argument '" ++ name ++ "' can only take child elements"
  | argumentRepeated name => "Argument '" ++ name ++ "' already defined"
  | singleValueOnly name => "Argument '" ++ name ++ "' can take only one value"
  | genericRefused => "Generic value not allowed"
  | wrongKind name found expected =>
    "Argument '" ++ name ++ "' can not take a " ++ found.word ++ ", expected " ++
      commaList (expected.map (·.word))
  | wrongLiteral name literal literals =>
    "Argument '" ++ name ++ "' can not take value " ++ literal ++ ", expected " ++
      commaList literals
  | unknownRole name => "Unknown child role '" ++ name ++ "'"
  | noChildrenIn name => "Role '" ++ name ++ "' can not take child elements"
  | notContained word => "Command '" ++ word ++ "' can not be contained here"
  | ambiguousRole => "Role of element is ambiguous, use a role label"
  | wrongClass name className expected =>
    "Role '" ++ name ++ "' can not take a " ++ className ++ ", expected " ++ commaList expected
  | singleChildOnly name => "Only one child allowed in role '" ++ name ++ "'"
  | containedElsewhere => "Element is already contained elsewhere"

end Fault

structure Problem where
  fault : Fault
  line : Nat
  file : Option String := none
deriving DecidableEq, Repr

def Problem.message (p : Problem) : String := p.fault.message

end CommandText
