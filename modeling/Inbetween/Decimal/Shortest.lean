import Inbetween.Binary64.Parts

/-!
# Shortest decimals

Among all decimals that read back as a given binary64 number there is a coarsest grid of multiples
of a power of ten that holds one, and on that grid a nearest one. That decimal has the fewest
digits and no trailing zero.

The decimals that read back as `m * 2 ^ q` fill an interval of reals around it, ends included
exactly if `m` is even. Its ends are multiples of `2 ^ (q - 2)`, so everything is compared in
natural numbers.
-/

namespace Inbetween.Decimal

/-- Which of two equally near decimals is taken. -/
inductive Tie where
  | up
  | even
  deriving DecidableEq, Repr

/-- The number `coefficient * 10 ^ scale`. -/
structure Scaled where
  coefficient : Nat
  scale : Int
  deriving DecidableEq, Repr

/-- The reals that round to `center`, in units of `2 ^ unit`: from `lowest` to `highest`. -/
structure Interval where
  lowest : Nat
  center : Nat
  highest : Nat
  closed : Bool
  unit : Int

/-- The interval of a finite number without its sign. Below a power of two the neighbours are twice
as near as above it, except at the least exponent. -/
def Interval.around (x : Float) : Interval :=
  let m := Binary64.significand x
  let below := if m = Nat.pow 2 52 ∧ Binary64.exponentField x > 1 then 1 else 2
  { lowest := 4 * m - below
    center := 4 * m
    highest := 4 * m + 2
    closed := m % 2 == 0
    unit := Binary64.exponent x - 2 }

namespace Interval

/-- The grid of multiples of `10 ^ k` and the units of the interval on one scale: a multiple `c` of
the grid is compared with `n` units as `c * gridStep k` with `n * unitStep k`. -/
def gridStep (i : Interval) (k : Int) : Nat :=
  Nat.pow 10 k.toNat * Nat.pow 2 (-i.unit).toNat

@[inherit_doc gridStep]
def unitStep (i : Interval) (k : Int) : Nat :=
  Nat.pow 10 (-k).toNat * Nat.pow 2 i.unit.toNat

/-- Does `c * 10 ^ k` lie in the interval? -/
def holds (i : Interval) (k : Int) (c : Nat) : Bool :=
  let point := c * i.gridStep k
  if i.closed then
    i.lowest * i.unitStep k ≤ point && point ≤ i.highest * i.unitStep k
  else
    i.lowest * i.unitStep k < point && point < i.highest * i.unitStep k

/-- The multiple of `10 ^ k` in the interval that is nearest to the center, if there is one. Only
the two neighbours of the center can be. -/
def nearest? (i : Interval) (tie : Tie) (k : Int) : Option Scaled :=
  let center := i.center * i.unitStep k
  let c := center / i.gridStep k
  let down := center - c * i.gridStep k
  let up := (c + 1) * i.gridStep k - center
  let upper : Bool :=
    if down = up then
      match tie with
      | .up => true
      | .even => c % 2 == 1
    else decide (up < down)
  match i.holds k c, i.holds k (c + 1) with
  | false, false => none
  | true, false => some ⟨c, k⟩
  | false, true => some ⟨c + 1, k⟩
  | true, true => some ⟨if upper then c + 1 else c, k⟩

/-- A power of ten that is greater than the center. -/
def ceilingPower (i : Interval) : Int :=
  (Nat.log2 i.center + 1 + i.unit) * 30103 / 100000 + 2

end Interval

/-- The shortest decimal that reads back as the size of a finite number. Twenty-two grids, each ten
times finer than the last, reach from above the number to below half the distance of its
neighbours. -/
def shortest (tie : Tie) (x : Float) : Scaled :=
  if Binary64.significand x = 0 then ⟨0, 0⟩
  else
    let i := Interval.around x
    ((List.range 22).findSome? fun (n : Nat) => i.nearest? tie (i.ceilingPower - n)).getD ⟨0, 0⟩

end Inbetween.Decimal
