import CommandText.Text.CharSet

/-!
# Regular expressions

The expressions that reference patterns are written with. Alternatives come in order: an earlier
one is preferred to a later one. A repetition prefers as many rounds as possible if it is greedy,
and as few as possible if it is lazy.

Expressions are put together in a normal form, by `concat`, `oneOf` and `repeated`. What a rule of
the form leaves out is a way to match that takes nothing and comes too late to be preferred, so the
form decides which of several matches is found when a round of a repetition may be empty.
-/

namespace CommandText

/-- A condition on a place in a text. -/
inductive Anchor
  | start
  | stop
  /-- Exactly one of the two sides is a word character. -/
  | boundary
  /-- Both sides are word characters, or none. -/
  | inside
deriving Repr, DecidableEq

inductive Expression
  | empty
  | one (set : CharSet)
  | anchor (a : Anchor)
  | seq (a b : Expression)
  | alt (a b : Expression)
  /-- A group that is told apart from every other group by a mark. -/
  | group (mark : Nat) (a : Expression)
  /-- At least `low` rounds, and at most `high` if there is a bound. -/
  | rounds (low : Nat) (high : Option Nat) (greedy : Bool) (a : Expression)
deriving Repr, DecidableEq

namespace Expression

/-- Whether every match takes a character. -/
def takesSome : Expression → Bool
  | empty => false
  | one set => !set.blocks.isEmpty
  | anchor _ => false
  | seq a b => a.takesSome || b.takesSome
  | alt a b => a.takesSome && b.takesSome
  | group _ a => a.takesSome
  | rounds low _ _ a => 0 < low && a.takesSome

/-- Whether no match takes a character. -/
def takesNothing : Expression → Bool
  | empty => true
  | one _ => false
  | anchor _ => true
  | seq a b => a.takesNothing && b.takesNothing
  | alt a b => a.takesNothing && b.takesNothing
  | group _ a => a.takesNothing
  | rounds _ _ _ a => a.takesNothing

/-- Whether every match is at the start of the text. -/
def startsText : Expression → Bool
  | anchor a => a == .start
  | seq a _ => a.startsText
  | alt a b => a.startsText && b.startsText
  | group _ a => a.startsText
  | rounds low _ _ a => 0 < low && a.startsText
  | _ => false

/-! ### Concatenation -/

/-- The expressions that stand one behind the other. -/
def parts : Expression → List Expression
  | empty => []
  | seq a b => a.parts ++ b.parts
  | a => [a]

/-- A concatenation of expressions that are none themselves. -/
def ofParts : List Expression → Expression
  | [] => empty
  | [a] => a
  | a :: rest => seq a (ofParts rest)

/-- Expressions one behind the other. A concatenation among them becomes part of this one. -/
def concat (es : List Expression) : Expression := ofParts (es.flatMap parts)

/-! ### Alternatives -/

def alternatives : Expression → List Expression
  | alt a b => a.alternatives ++ b.alternatives
  | a => [a]

/-- An expression with some alternatives that have none themselves. -/
def ofAlternatives : List Expression → Expression
  | [] => empty
  | [a] => a
  | a :: rest => alt a (ofAlternatives rest)

def set? : Expression → Option CharSet
  | one set => some set
  | _ => none

/-- Alternatives; if each of them is one character of a set, so is the whole. -/
def choice (es : List Expression) : Expression :=
  let es := es.flatMap alternatives
  match es.mapM set? with
  | some (set :: sets) => one (sets.foldl .union set)
  | _ => ofAlternatives es

/-- What two lists start with. -/
def commonStart : List Expression → List Expression → List Expression
  | a :: as, b :: bs => if a = b then a :: commonStart as bs else []
  | _, _ => []

/-- Whether an expression is a concatenation of at least two parts. -/
def isSeq : Expression → Bool
  | seq _ _ => true
  | _ => false

/-- The parts that all of some alternatives start with, if all of them are concatenations. -/
def sharedStart (es : List Expression) : List Expression :=
  match es with
  | first :: rest =>
    if es.all isSeq then rest.foldl (fun shared e => commonStart shared e.parts) first.parts
    else []
  | [] => []

/-- Alternatives in order. An expression with alternatives among them gives its own, and parts that
all of them start with are matched once, in front. -/
def oneOf (es : List Expression) : Expression :=
  match es with
  | [a] => a
  | _ =>
    let es := es.flatMap alternatives
    match sharedStart es with
    | [] => choice es
    | shared =>
      concat (shared ++ [choice (es.map fun e => ofParts (e.parts.drop shared.length))])

/-! ### Repetition -/

/-- Rounds of an expression. Of one that takes nothing a second round is never needed. -/
def repeated (low : Nat) (high : Option Nat) (greedy : Bool) (a : Expression) : Expression :=
  let (low, high) :=
    if a.takesNothing then (min low 1, some (min (high.getD 1) 1)) else (low, high)
  if high = some 0 then empty
  else if low = 1 ∧ high = some 1 then a
  else rounds low high greedy a

end Expression

end CommandText
