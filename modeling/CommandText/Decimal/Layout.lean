import CommandText.Decimal.Shortest

/-!
# Laying out decimals

How the shortest digits of a floating-point number are written down: with or without an exponent,
and with or without a mark for whole numbers.
-/

namespace CommandText

/-- The decisions of a number format. -/
structure Layout where
  /-- The least and the greatest exponent, of the form `d.ddd * 10 ^ e`, that are written without
  an exponent; all are if there are no bounds. -/
  plain : Option (Int × Int)
  /-- What stands behind a whole number. -/
  wholeMark : List Char
  tie : Tie
deriving Repr, DecidableEq

namespace Digits

/-- The exponent of the form `d.ddd * 10 ^ e`. -/
def leading (d : Digits) : Int := d.exponent + (toDigits d.digits).length - 1

def positional (wholeMark : List Char) (d : Digits) : List Char :=
  if 0 ≤ d.exponent then
    toDigits d.digits ++ List.replicate d.exponent.toNat '0' ++ wholeMark
  else withPoint (toDigits d.digits) (-d.exponent).toNat

/-- Written with one digit before the point and a signed exponent. -/
def scientific (d : Digits) : List Char :=
  let text := toDigits d.digits
  let sign := if d.leading < 0 then '-' else '+'
  withPoint text (text.length - 1) ++ 'e' :: sign :: toDigits d.leading.natAbs

end Digits

namespace Layout

def digits (l : Layout) (d : Digits) : List Char :=
  match l.plain with
  | none => d.positional l.wholeMark
  | some (low, high) =>
    if low ≤ d.leading && d.leading ≤ high then d.positional l.wholeMark else d.scientific

def signed (negative : Bool) (text : List Char) : List Char :=
  if negative then '-' :: text else text

def write (l : Layout) (x : Float) : List Char :=
  match FloatShape.of x with
  | .nan => ['N', 'a', 'N']
  | .infinite negative => signed negative ['i', 'n', 'f']
  | .zero negative => signed negative ('0' :: l.wholeMark)
  | .finite negative b => signed negative (l.digits (b.shortest l.tie))

end Layout

end CommandText
