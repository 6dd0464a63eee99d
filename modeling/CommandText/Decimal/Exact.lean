import CommandText.Decimal.Layout

/-!
# Float literals

A float literal is a sign, digits, a point, digits and perhaps a signed exponent. A short one is
read as a floating-point number. A long one, which would lose digits on the way, is read as an
exact decimal with a 96-bit mantissa and at most 28 places, or kept as written if it is none.
-/

namespace CommandText

/-- The parts of a float literal. The digits are kept as written. -/
structure FloatLiteral where
  sign : Option Char
  whole : List Char
  fraction : List Char
  /-- The sign and the digits behind the `e`. -/
  exponent : Option (Char × List Char)
deriving Repr, DecidableEq

/-- The decimal `mantissa / 10 ^ scale`, with a sign. -/
structure Exact where
  negative : Bool
  mantissa : Nat
  scale : Nat
deriving Repr, DecidableEq

namespace Exact

/-- Mantissas stay below this bound. -/
def bound : Nat := Nat.pow 2 96

def maxScale : Nat := 28

/-- The decimal with exactly `scale` places. Zero has no sign. -/
def text (d : Exact) : List Char :=
  Layout.signed (d.negative && d.mantissa != 0) (withPoint (toDigits d.mantissa) d.scale)

end Exact

namespace FloatLiteral

def written (l : FloatLiteral) : List Char :=
  l.sign.toList ++ l.whole ++ '.' :: l.fraction ++
    match l.exponent with
    | none => []
    | some (sign, digits) => 'e' :: sign :: digits

/-- The literal as written, but without a plus sign in front. -/
def unsigned (l : FloatLiteral) : List Char :=
  (if l.sign = some '+' then { l with sign := none } else l).written

def isNegative (l : FloatLiteral) : Bool := l.sign = some '-'

/-- The number behind the `e`, zero if there is none. -/
def power (l : FloatLiteral) : Int :=
  match l.exponent with
  | none => 0
  | some (sign, digits) => if sign = '-' then -(ofDigits digits : Int) else ofDigits digits

/-- The nearest floating-point number. Only short literals are read this way, so that a power of
ten beyond 400 either way already decides between zero and infinity. -/
def toFloat (l : FloatLiteral) : Float :=
  let e := max (-400) (min 400 (l.power - l.fraction.length))
  let x := Float.ofScientific (ofDigits (l.whole ++ l.fraction)) (e < 0) e.natAbs
  if l.isNegative then -x else x

/-- The exact decimal of a literal without an exponent: every digit has to fit. -/
def exactPlain? (l : FloatLiteral) : Option Exact :=
  let m := ofDigits (l.whole ++ l.fraction)
  if m < Exact.bound && l.fraction.length ≤ Exact.maxScale then
    some ⟨l.isNegative, m, l.fraction.length⟩
  else none

/-- Takes fractional digits while they fit. The first digit that does not fit decides whether the
mantissa is rounded up; a mantissa that thereby reaches the bound gives up its last place. -/
def takeFraction (m scale : Nat) : List Char → Option (Nat × Nat)
  | [] => some (m, scale)
  | c :: cs =>
    let next := 10 * m + digitValue c
    if next < Exact.bound && scale < Exact.maxScale then takeFraction next (scale + 1) cs
    else if digitValue c < 5 then some (m, scale)
    else if m + 1 < Exact.bound then some (m + 1, scale)
    else if scale = 0 then none
    else some ((m + 1 + 4) / 10, scale - 1)

/-- A decimal with its exponent applied: a negative one adds places, a positive one takes places
away and then appends zeros. -/
def shift? (d : Exact) (sign : Char) (digits : List Char) : Option Exact :=
  let x := ofDigits digits
  if Nat.pow 2 32 ≤ x then none
  else if sign = '-' then
    if Exact.maxScale < x || Exact.maxScale < d.scale + x then none
    else some { d with scale := d.scale + x }
  else if x ≤ d.scale then some { d with scale := d.scale - x }
  else if Exact.maxScale < x then none
  else
    let m := d.mantissa * Nat.pow 10 (x - d.scale)
    if Exact.bound ≤ m then none else some { d with mantissa := m, scale := 0 }

def decimal? (l : FloatLiteral) : Option Exact :=
  match l.exponent with
  | none => l.exactPlain?
  | some (sign, digits) => do
    let whole := ofDigits l.whole
    if Exact.bound ≤ whole then none
    else
      let (m, scale) ← takeFraction whole 0 l.fraction
      shift? ⟨l.isNegative, m, scale⟩ sign digits

end FloatLiteral

/-- The value of a long float literal. -/
inductive LongFloat
  | decimal (d : Exact)
  /-- Kept as written. -/
  | literal (text : String)
deriving Repr, DecidableEq

/-- The value of a literal, as exactly as possible. -/
def LongFloat.of (l : FloatLiteral) : LongFloat :=
  match l.decimal? with
  | some d => decimal d
  | none => literal (String.ofList l.unsigned)

def LongFloat.text : LongFloat → String
  | decimal d => String.ofList d.text
  | literal text => text

end CommandText
