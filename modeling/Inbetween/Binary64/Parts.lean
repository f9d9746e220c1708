/-!
# Parts of a binary64 number

A finite binary64 number is `significand * 2 ^ exponent` with a sign. The parts are read off the
bits, so that everything built on them (truncation, remainders, decimal text) is exact arithmetic
on natural numbers.
-/

namespace Inbetween.Binary64

/-- Is the sign bit set? It is for minus zero. -/
def isNegative (x : Float) : Bool :=
  x.toBits.toNat / Nat.pow 2 63 == 1

/-- The eleven bits of the exponent field. -/
def exponentField (x : Float) : Nat :=
  x.toBits.toNat / Nat.pow 2 52 % Nat.pow 2 11

/-- The fifty-two bits of the fraction field. -/
def fractionField (x : Float) : Nat :=
  x.toBits.toNat % Nat.pow 2 52

/-- The whole significand, with the leading one that normal numbers leave out. -/
def significand (x : Float) : Nat :=
  if exponentField x = 0 then fractionField x else Nat.pow 2 52 + fractionField x

/-- The power of two that the significand counts. Subnormal numbers share the least one. -/
def exponent (x : Float) : Int :=
  (max (exponentField x) 1 : Nat) - 1075

/-- The number with the given sign and the size of `x`, a natural number below `2 ^ 53`. -/
def ofInteger (negative : Bool) (n : Nat) : Float :=
  if negative then -(Float.ofNat n) else Float.ofNat n

/-- The power of two with exponent `e`, for `e` from -1074 to 1023. -/
def powerOfTwo (e : Int) : Float :=
  let field := (e + 1023).toNat
  if field = 0 then Float.ofBits (Nat.pow 2 (e + 1074).toNat).toUInt64
  else Float.ofBits (field * Nat.pow 2 52).toUInt64

/-! ## Integral part and remainder -/

/-- The integral part, rounded toward zero, with the sign of `x`. A number whose exponent is not
negative has no fractional bits and is its own integral part. -/
def trunc (x : Float) : Float :=
  if x.isFinite && exponent x < 0 then
    ofInteger (isNegative x) (significand x / Nat.pow 2 (-exponent x).toNat)
  else x

/-- The exact remainder of `x` by `y` with the sign of `x`: both sizes are multiples of the smaller
of their two powers of two, and the remainder of those multiples is a significand again. -/
def remainder (x y : Float) : Float :=
  if x.isFinite && !y.isNaN && !(y == 0.0) then
    if y.isInf then x
    else
      let e := min (exponent x) (exponent y)
      let m := significand x * Nat.pow 2 (exponent x - e).toNat
      let n := significand y * Nat.pow 2 (exponent y - e).toNat
      ofInteger (isNegative x) (m % n) * powerOfTwo e
  else 0.0 / 0.0

end Inbetween.Binary64
