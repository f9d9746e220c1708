import Inbetween.Scalar

/-!
# Values derived from values

The formulas behind the animations that are no interpolations: the cubic curve through four control
points, the value wrapped into a range, and the rate of change between two readings.
-/

namespace Inbetween

/-- The control points of a cubic Bézier curve. -/
structure Bezier (α : Type) where
  p0 : α
  p1 : α
  p2 : α
  p3 : α
  deriving DecidableEq, Repr

variable {α : Type} [Scalar α]

/-- The point of the curve at `t`, by its Bernstein form. -/
def Bezier.point (b : Bezier α) (t : α) : α :=
  let u := 1.0 - t
  u * u * u * b.p0 + 3.0 * u * u * t * b.p1 + 3.0 * u * t * t * b.p2 + t * t * t * b.p3

/-- The value moved by whole widths of the range between two bounds until it lies in it. The order
of the bounds does not matter. -/
def wrapBetween (a b value : α) : α :=
  let (low, high) := if a ≤ b then (a, b) else (b, a)
  low + Scalar.euclidean (value - low) (high - low)

/-- A reading of a value at a clock time. -/
structure Reading (α : Type) where
  time : α
  value : α
  deriving DecidableEq, Repr

/-- The change per unit of time from one reading to the next. -/
def Reading.rate (last next : Reading α) : α :=
  (next.value - last.value) / (next.time - last.time)

end Inbetween
