/-!
# Scalars

Every formula of the library is written once, over a type of scalars that offers the four
operations, the comparisons, decimal literals, and a few elementary functions. Binary64 numbers
are the scalars that run; an exact type gives the same formulas their mathematical reading.

Nothing is assumed about the operations: a comparison may fail both ways, and a sum may round.
-/

namespace Inbetween

/-- What the curves, windows and modifiers ask of a number. -/
class Scalar (α : Type) extends Add α, Sub α, Mul α, Div α, Neg α, LT α, LE α, BEq α,
    OfScientific α where
  decidableLT : DecidableLT α
  decidableLE : DecidableLE α
  /-- The integral part, rounded toward zero. -/
  trunc : α → α
  /-- The remainder of a division whose quotient is rounded toward zero. -/
  remainder : α → α → α
  abs : α → α
  sqrt : α → α
  sin : α → α
  cos : α → α
  exp : α → α
  pi : α

attribute [reducible, instance] Scalar.decidableLT Scalar.decidableLE

namespace Scalar

variable {α : Type} [Scalar α]

/-- The remainder moved into the range from zero to the size of the divisor. -/
def euclidean (x y : α) : α :=
  let r := remainder x y
  if r < 0.0 then r + abs y else r

end Scalar

end Inbetween
