import Inbetween.Decimal.Numeral

/-!
# Reading numerals

A numeral is read by its leading digits and one power of ten. Digits enter the significand as long
as it stays below `2 ^ 64`; later digits before the point only raise the power, later digits behind
it are dropped. Significand and power of ten are both rounded to binary64, and so is their product
or quotient. Numerals of at most fifteen digits and a small power are read exactly.
-/

namespace Inbetween.Decimal

/-- Appends digits to a significand while they fit. Gives the significand and the number of digits
that are left over. -/
def absorb (significand : Nat) : List Digit → Nat × Nat
  | [] => (significand, 0)
  | d :: ds =>
    let next := 10 * significand + d.val
    if next < Nat.pow 2 64 then absorb next ds else (significand, ds.length + 1)

/-- The power of ten that is nearest to `10 ^ n` in binary64. -/
def powerOfTen (n : Nat) : Float := OfScientific.ofScientific 1 false n

/-- Divides a significand by `10 ^ n`, by the largest power in range first. Two such steps leave
nothing of it. -/
def shrink (x : Float) (n : Nat) : Float :=
  if n ≤ 308 then x / powerOfTen n
  else if n ≤ 616 then x / powerOfTen 308 / powerOfTen (n - 308)
  else 0.0

/-- Multiplies by `10 ^ n`, unless the product is beyond the largest number. -/
def grow? (x : Float) (n : Nat) : Option Float :=
  if n ≤ 308 then
    let y := x * powerOfTen n
    if y.isInf then none else some y
  else if x == 0.0 then some x
  else none

namespace Numeral

/-- The number that a numeral is read as. Numerals beyond the largest number are refused; those that
are too small are zeros, and a zero keeps its sign. -/
def toFloat? (n : Numeral) : Option Float :=
  let (whole, above) := absorb 0 n.whole
  let (significand, dropped) := absorb whole n.fraction
  let behind := n.fraction.length - dropped
  let power := (above : Int) - behind + (n.exponent.map Exponent.toInt).getD 0
  let size :=
    if 0 ≤ power then grow? (Float.ofNat significand) power.toNat
    else some (shrink (Float.ofNat significand) (-power).toNat)
  size.map fun x => if n.negative then -x else x

/-- The natural number that a numeral without sign, point and exponent stands for, if it fits in 64
bits. -/
def toWord? (n : Numeral) : Option Nat :=
  if n.negative || !n.fraction.isEmpty || n.exponent.isSome then none
  else
    let v := value n.whole
    if v < Nat.pow 2 64 then some v else none

end Numeral

end Inbetween.Decimal
