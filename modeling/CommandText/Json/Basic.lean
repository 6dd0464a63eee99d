import CommandText.Decimal.Layout

/-!
# JSON values

Schema definitions are written in JSON. Objects keep their fields in the order of the text, with
repeated keys, because a definition may not repeat a key that it knows; numbers are kept as
written, because a field that nobody asks for may hold a number out of range. For the same reason
a string may be no text: an escape in it can be one half of a surrogate pair without the other.
-/

namespace CommandText

/-- A number as written. -/
structure NumberLiteral where
  negative : Bool
  whole : List Char
  fraction : List Char
  exponent : Option Int
deriving Repr, DecidableEq

/-- A number: an integer of 64 bits, signed or unsigned, or a floating-point number. -/
inductive JsonNumber
  | integer (n : Int)
  | float (x : Float)
deriving Repr, DecidableEq

namespace NumberLiteral

/-- The bound of the leading digits that count. -/
def bound : Nat := Nat.pow 2 64

/-- Takes digits into a number while it stays below the bound, and counts the digits taken. -/
def takeDigits (n count : Nat) : List Char → Nat × Nat
  | [] => (n, count)
  | c :: cs =>
    let next := 10 * n + digitValue c
    if next < bound then takeDigits next (count + 1) cs else (n, count)

def powerOfTen (n : Nat) : Float := Float.ofScientific 1 false n

/-- A floating-point number times a power of ten, by one multiplication or division where the
power is in range. An infinite result is refused. -/
def scale? : Nat → Float → Int → Option Float
  | 0, x, _ => some x
  | fuel + 1, x, e =>
    if e.natAbs ≤ 308 then
      if 0 ≤ e then
        let y := x * powerOfTen e.natAbs
        if y.isInf then none else some y
      else some (x / powerOfTen e.natAbs)
    else if x == 0 then some x
    else if 0 ≤ e then none
    else scale? fuel (x / powerOfTen 308) (e + 308)

/-- The floating-point number of a literal: its leading digits as an integer of 64 bits, scaled by
a power of ten. -/
def toFloat? (l : NumberLiteral) : Option Float := do
  let (n, taken) := takeDigits 0 0 l.whole
  let (n, places) := takeDigits n 0 l.fraction
  let e := (l.whole.length - taken : Nat) - (places : Int) + l.exponent.getD 0
  let x ← scale? 4 (Float.ofNat n) e
  some (if l.negative then -x else x)

/-- The number that a literal stands for, unless it is out of range. Minus zero is no integer. -/
def value? (l : NumberLiteral) : Option JsonNumber :=
  let n := ofDigits l.whole
  let integral := l.fraction.isEmpty && l.exponent.isNone
  if integral && !l.negative && n < Nat.pow 2 64 then some (.integer n)
  else if integral && l.negative && 0 < n && n ≤ Nat.pow 2 63 then some (.integer (-n))
  else l.toFloat?.map .float

end NumberLiteral

/-- What a string stands for; none if it has half of a surrogate pair without the other. -/
abbrev JsonText := Option String

inductive Json
  | null
  | bool (b : Bool)
  | number (literal : NumberLiteral)
  | string (text : JsonText)
  | array (items : List Json)
  | object (fields : List (JsonText × Json))
deriving Repr, Inhabited

namespace Json

/-- The last field with a key. -/
def lastField? (key : String) (fields : List (JsonText × Json)) : Option Json :=
  fields.foldl (fun found field => if field.1 = some key then some field.2 else found) none

def lookup? (key : String) : Json → Option Json
  | object fields => lastField? key fields
  | _ => none

/-- Fields with each key once; the last one of a repeated key is kept. -/
def keepLast : List (JsonText × Json) → List (JsonText × Json)
  | [] => []
  | field :: fields =>
    if fields.any (·.1 == field.1) then keepLast fields else field :: keepLast fields

mutual

/-- A value whose objects hold each key once. -/
def merged : Json → Json
  | array items => array (mergedItems items)
  | object fields => object (keepLast (mergedFields fields))
  | value => value

def mergedItems : List Json → List Json
  | [] => []
  | item :: items => item.merged :: mergedItems items

def mergedFields : List (JsonText × Json) → List (JsonText × Json)
  | [] => []
  | (key, value) :: fields => (key, value.merged) :: mergedFields fields

end

end Json

end CommandText
