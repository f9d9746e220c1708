import Mathlib.Algebra.Order.Floor.Ring
import Mathlib.Tactic.NormNum.OfScientific
import Inbetween.Scalar

/-!
# Exact scalars

The numbers of an ordered field in which integral parts can be taken, such as the rational numbers,
are scalars without rounding. The elementary functions are not settled by the field, so they are
left open.
-/

namespace Inbetween

/-- The functions that a field does not settle. -/
class Elementary (K : Type) where
  sqrt : K → K
  sin : K → K
  cos : K → K
  exp : K → K
  pi : K

namespace Scalar

variable {K : Type} [Field K] [CharZero K]

theorem exact_zero : (0.0 : K) = 0 := by norm_num

theorem exact_one : (1.0 : K) = 1 := by norm_num

variable [LinearOrder K] [FloorRing K]

/-- The integral part, rounded toward zero. -/
def towardZero (x : K) : K := if x < 0 then ⌈x⌉ else ⌊x⌋

instance exact [Elementary K] : Scalar K where
  beq x y := decide (x = y)
  decidableLT := inferInstance
  decidableLE := inferInstance
  trunc := towardZero
  remainder x y := x - y * towardZero (x / y)
  abs x := |x|
  sqrt := Elementary.sqrt
  sin := Elementary.sin
  cos := Elementary.cos
  exp := Elementary.exp
  pi := Elementary.pi

end Scalar

end Inbetween
