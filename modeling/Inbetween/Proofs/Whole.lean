import Inbetween.Scalar

/-!
# Whole numbers as scalars

Small worlds can be run by hand when their numbers are whole. Decimals lose their fraction, and the
functions that do not keep to whole numbers are left at zero.
-/

namespace Inbetween

instance : Scalar Int where
  ofScientific digits negative shift :=
    .ofNat (if negative then digits / Nat.pow 10 shift else digits * Nat.pow 10 shift)
  decidableLT := Int.decLt
  decidableLE := Int.decLe
  trunc := id
  remainder := Int.tmod
  abs x := x.natAbs
  sqrt _ := 0
  sin _ := 0
  cos _ := 0
  exp _ := 0
  pi := 3

end Inbetween
