import Inbetween.Proofs.Ranges
import Inbetween.Proofs.Scales

/-!
# Curves as blends

A point of a cubic curve can be found without the weights of its control points: neighbouring points
are blended at the ratio, which leaves three, these are blended again, and so are the last two. So
what a blend of two numbers keeps is kept by the curve, too, whether it is a scale, a range, or the
direction in which one goes.
-/

namespace Inbetween

open Set

namespace Bezier

/-- The curve through the images of all control points. -/
def map {α β : Type} (f : α → β) (b : Bezier α) : Bezier β := ⟨f b.p0, f b.p1, f b.p2, f b.p3⟩

/-- The control points in the opposite order. -/
def reversed {α : Type} (b : Bezier α) : Bezier α := ⟨b.p3, b.p2, b.p1, b.p0⟩

def least {α : Type} [Min α] (b : Bezier α) : α := min (min b.p0 b.p1) (min b.p2 b.p3)

def greatest {α : Type} [Max α] (b : Bezier α) : α := max (max b.p0 b.p1) (max b.p2 b.p3)

/-- Neighbours are blended, again and again until there is one number left. -/
def blended {α : Type} [Scalar α] (b : Bezier α) (t : α) : α :=
  let first := Curve.lerp b.p0 b.p1 t
  let middle := Curve.lerp b.p1 b.p2 t
  let last := Curve.lerp b.p2 b.p3 t
  Curve.lerp (Curve.lerp first middle t) (Curve.lerp middle last t) t

/-! ## What blends keep -/

section Blends

variable {α : Type} [Scalar α] {b : Bezier α} {t u : α}

theorem blended_map {f : α → α}
    (h : ∀ x y, Curve.lerp (f x) (f y) t = f (Curve.lerp x y t)) :
    (b.map f).blended t = f (b.blended t) := by
  simp only [blended, map, h]

theorem blended_reversed (h : ∀ x y : α, Curve.lerp y x u = Curve.lerp x y t) :
    b.reversed.blended u = b.blended t := by
  simp only [blended, reversed, h]

theorem blended_mem {s : Set α} (h : ∀ x ∈ s, ∀ y ∈ s, Curve.lerp x y t ∈ s) (h₀ : b.p0 ∈ s)
    (h₁ : b.p1 ∈ s) (h₂ : b.p2 ∈ s) (h₃ : b.p3 ∈ s) : b.blended t ∈ s := by
  have first := h _ h₀ _ h₁
  have middle := h _ h₁ _ h₂
  have last := h _ h₂ _ h₃
  exact h _ (h _ first _ middle) _ (h _ middle _ last)

end Blends

/-! ## Points of the curve -/

section Exact

variable {K : Type} [Field K] [LinearOrder K] [FloorRing K] [Elementary K] (b : Bezier K)

theorem point_eq_blended (t : K) : b.point t = b.blended t := by
  have hone : (1.0 : K) = 1 := Scalar.exact_one
  have hthree : (3.0 : K) = 3 := by norm_num
  simp only [point, blended, Curve.lerp, hone, hthree]
  ring

theorem point_affine (a c t : K) : (b.map (affine a c)).point t = affine a c (b.point t) := by
  rw [point_eq_blended, point_eq_blended]
  apply blended_map
  intro x y
  exact affine_lerp a c x y t

theorem point_reversed (t : K) : b.reversed.point (1 - t) = b.point t := by
  rw [point_eq_blended, point_eq_blended]
  apply blended_reversed
  intro x y
  simp only [Curve.lerp]
  ring

variable [IsStrictOrderedRing K]

theorem point_mem_Icc {t : K} (ht : t ∈ Icc 0 1) : b.point t ∈ Icc b.least b.greatest := by
  rw [point_eq_blended]
  apply blended_mem
  · intro x hx y hy
    exact uIcc_subset_Icc hx hy (Curve.lerp_mem ht)
  all_goals simp [least, greatest]

/-- **A point of a curve is a repeated blend of its control points.** An affine map can be applied
to the control points or to the point of the curve, with the same result. The curve of the reversed
control points is run through the other way. From 0 to 1, the curve stays between the least and the
greatest of its control points. -/
theorem points_are_blends :
    (∀ (b : Bezier K) (t : K), b.point t = b.blended t) ∧
    (∀ (b : Bezier K) (a c t : K), (b.map (affine a c)).point t = affine a c (b.point t)) ∧
    (∀ (b : Bezier K) (t : K), b.reversed.point (1 - t) = b.point t) ∧
    ∀ (b : Bezier K) (t : K), t ∈ Icc 0 1 → b.least ≤ b.point t ∧ b.point t ≤ b.greatest := by
  refine ⟨?_, ?_, ?_, ?_⟩
  · intro b t
    exact b.point_eq_blended t
  · intro b a c t
    exact b.point_affine a c t
  · intro b t
    exact b.point_reversed t
  · intro b t ht
    exact b.point_mem_Icc ht

end Exact

/-! ## A curve that turns back -/

namespace Bend

def points : Bezier ℚ := ⟨8, 72, -24, 40⟩

/-- A quarter of the way along a curve whose inner control points lie outside of its ends. -/
theorem blended_at_quarter :
    points.point (1 / 4) = 31 ∧
    (points.map (affine (-2) 3)).point (1 / 4) = -59 ∧
    points.reversed.point (3 / 4) = 31 ∧
    -24 ≤ points.point (1 / 4) ∧ points.point (1 / 4) ≤ 72 := by
  obtain ⟨blends, maps, reverses, between⟩ := points_are_blends (K := ℚ)
  have hpoint : points.point (1 / 4) = 31 := by
    rw [blends]
    decide +kernel
  have hrest : (1 : ℚ) - 1 / 4 = 3 / 4 := by norm_num
  refine ⟨hpoint, ?_, ?_, ?_⟩
  · rw [maps, hpoint]
    norm_num [affine]
  · rw [← hpoint, ← hrest]
    exact reverses points (1 / 4)
  · have hleast : points.least = -24 := by norm_num [least, points]
    have hgreatest : points.greatest = 72 := by norm_num [greatest, points]
    rw [← hleast, ← hgreatest]
    exact between points (1 / 4) ⟨by norm_num, by norm_num⟩

end Bend

end Bezier

end Inbetween
