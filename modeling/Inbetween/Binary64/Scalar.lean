import Inbetween.Binary64.Parts
import Inbetween.Scalar

/-!
# Binary64 numbers as scalars

The four operations, the comparisons and the square root are the correctly rounded ones of the
format. Decimal literals are rounded to the nearest number. The sine, the cosine and the
exponential are those of the platform.
-/

namespace Inbetween

instance : Scalar Float where
  decidableLT := Float.decLt
  decidableLE := Float.decLe
  trunc := Binary64.trunc
  remainder := Binary64.remainder
  abs := Float.abs
  sqrt := Float.sqrt
  sin := Float.sin
  cos := Float.cos
  exp := Float.exp
  pi := 3.141592653589793

end Inbetween
