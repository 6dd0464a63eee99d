import CommandText.Decimal.Digits

/-!
# The shortest decimal that reads back

A floating-point number stands for every real number that rounds to it. Of the decimals among
those, the one with the fewest digits is written, and of several with equally few digits the
nearest.

## Implementation notes

All comparisons are made between natural numbers: both sides of a comparison of `d * 10 ^ k` with
`a * 2 ^ q` are multiplied by the powers that have negative exponents. Quarters of the last binary
place are the unit, because the ends of the interval of reals that round to a number lie halfway to
its neighbours, and at a power of two the lower neighbour is half as far away as the upper one.
-/

namespace CommandText

/-- Which of two decimals to take if they are equally near. -/
inductive Tie
  | up
  | toEven
deriving Repr, DecidableEq

/-- The positive number `mantissa * 2 ^ exponent`. -/
structure Binary where
  mantissa : Nat
  exponent : Int
deriving Repr, DecidableEq

/-- The number `digits * 10 ^ exponent`. -/
structure Digits where
  digits : Nat
  exponent : Int
deriving Repr, DecidableEq

namespace Binary

/-- The factor on the decimal side of a comparison at a decimal exponent. -/
def decimalFactor (b : Binary) (k : Int) : Nat :=
  Nat.pow 10 k.toNat * Nat.pow 2 (2 - b.exponent).toNat

/-- The factor on the binary side of a comparison at a decimal exponent, in quarters of the last
binary place. -/
def binaryFactor (b : Binary) (k : Int) : Nat :=
  Nat.pow 2 (b.exponent - 2).toNat * Nat.pow 10 (-k).toNat

/-- How far the interval of reals that round to the number reaches down, in quarters of the last
binary place. -/
def reachDown (b : Binary) : Nat :=
  if b.mantissa = Nat.pow 2 52 ∧ b.exponent ≠ -1074 then 1 else 2

/-- Whether `d * 10 ^ k` rounds to the number. The ends of the interval belong to it if the
mantissa is even. -/
def roundsBack (b : Binary) (d : Nat) (k : Int) : Bool :=
  let x := d * b.decimalFactor k
  let low := (4 * b.mantissa - b.reachDown) * b.binaryFactor k
  let high := (4 * b.mantissa + 2) * b.binaryFactor k
  if b.mantissa % 2 = 0 then low ≤ x && x ≤ high else low < x && x < high

/-- The nearest multiple of `10 ^ k` among the two next to the number, if one of them rounds to
it. -/
def onGrid (tie : Tie) (b : Binary) (k : Int) : Option Digits :=
  let exact := 4 * b.mantissa * b.binaryFactor k
  let d := exact / b.decimalFactor k
  match b.roundsBack d k, b.roundsBack (d + 1) k with
  | true, true =>
    let middle := (2 * d + 1) * b.decimalFactor k
    let below := 2 * exact < middle || (2 * exact == middle && tie == .toEven && d % 2 == 0)
    some ⟨if below then d else d + 1, k⟩
  | true, false => some ⟨d, k⟩
  | false, true => some ⟨d + 1, k⟩
  | false, false => none

/-- The first grid with a hit, from a decimal exponent downwards. -/
def search (tie : Tie) (b : Binary) : Nat → Int → Digits
  | 0, k => ⟨4 * b.mantissa * b.binaryFactor k / b.decimalFactor k, k⟩
  | fuel + 1, k =>
    match b.onGrid tie k with
    | some d => d
    | none => search tie b fuel (k - 1)

/-- A decimal exponent whose power of ten is at least the number, but not ten times too large. -/
def start (b : Binary) : Int :=
  let whole := b.mantissa * Nat.pow 2 b.exponent.toNat / Nat.pow 2 (-b.exponent).toNat
  if 0 < whole then (toDigits whole).length
  else 1 - ((toDigits (Nat.pow 2 (-b.exponent).toNat / b.mantissa)).length : Int)

/-- The shortest decimal that rounds to the number. Seventeen digits are always enough. -/
def shortest (tie : Tie) (b : Binary) : Digits := b.search tie 19 b.start

end Binary

/-- What a floating-point number is. -/
inductive FloatShape
  | nan
  | infinite (negative : Bool)
  | zero (negative : Bool)
  | finite (negative : Bool) (magnitude : Binary)
deriving Repr, DecidableEq

def FloatShape.of (x : Float) : FloatShape :=
  let bits := x.toBits.toNat
  let negative := Nat.pow 2 63 ≤ bits
  let exponent : Nat := bits / Nat.pow 2 52 % Nat.pow 2 11
  let fraction : Nat := bits % Nat.pow 2 52
  if exponent = 2047 then if fraction = 0 then infinite negative else nan
  else if exponent = 0 then
    if fraction = 0 then zero negative else finite negative ⟨fraction, -1074⟩
  else finite negative ⟨Nat.pow 2 52 + fraction, (exponent : Int) - 1075⟩

end CommandText
