import Mathlib.Tactic.LinearCombination
import Mathlib.Tactic.NormNum.Inv
import Inbetween.Easing.Mode
import Inbetween.Proofs.Reals

/-!
# Families of curves

The curves of a family are written in forms of their own, but without rounding one of them is
enough. Seen from its end, the curve that eases out is the one that eases in. The curve that eases
in and out is put together from the two at half their size, and where two pieces of a curve meet
they agree. All this holds on the whole line.
-/

namespace Inbetween

/-! ## Mirrored and glued curves -/

namespace Curve

section Shapes

variable {K : Type} [Field K] [LinearOrder K]

/-- The curve seen from its end. -/
def mirror (f : K → K) (t : K) : K := 1 - f (1 - t)

/-- The first curve up to the middle and then the second one, both at half their size. -/
def glue (f g : K → K) (t : K) : K :=
  if t < 1 / 2 then f (2 * t) / 2 else g (2 * t - 1) / 2 + 1 / 2

theorem glue_of_lt (f g : K → K) {t : K} (h : t < 1 / 2) : glue f g t = f (2 * t) / 2 := if_pos h

theorem glue_of_le (f g : K → K) {t : K} (h : 1 / 2 ≤ t) :
    glue f g t = g (2 * t - 1) / 2 + 1 / 2 := if_neg (not_lt.mpr h)

/-- A curve that begins at zero, glued to its mirror image, is its own mirror image. -/
theorem glue_mirror_add [IsStrictOrderedRing K] (g : K → K) (h : g 0 = 0) (t : K) :
    glue (mirror g) g t + glue (mirror g) g (1 - t) = 1 := by
  rcases lt_trichotomy t (1 / 2) with ht | rfl | ht
  · have harg : 2 * (1 - t) - 1 = 1 - 2 * t := by ring
    rw [glue_of_lt _ _ ht, glue_of_le _ _ (by linarith), mirror, harg]
    ring
  · have hmiddle : (1 : K) - 1 / 2 = 1 / 2 := by norm_num
    have hstart : 2 * (1 / 2 : K) - 1 = 0 := by norm_num
    rw [hmiddle, glue_of_le _ _ le_rfl, hstart, h]
    norm_num
  · have harg : 1 - 2 * (1 - t) = 2 * t - 1 := by ring
    rw [glue_of_le _ _ ht.le, glue_of_lt _ _ (by linarith), mirror, harg]
    ring

/-- The curve that follows each piece up to its seam, and then the last one. -/
def pieced : List (K × (K → K)) → (K → K) → K → K
  | [], last, t => last t
  | (seam, piece) :: rest, last, t => if t < seam then piece t else pieced rest last t

/-- The piece that comes first. -/
def foremost : List (K × (K → K)) → (K → K) → K → K
  | [], last => last
  | (_, piece) :: _, _ => piece

/-- At each seam, the piece that ends and the one that begins have the same value. -/
def Meet : List (K × (K → K)) → (K → K) → Prop
  | [], _ => True
  | (seam, piece) :: rest, last => piece seam = foremost rest last seam ∧ Meet rest last

/-- The curve that eases in with this overshoot. -/
def inBackBy (s t : K) : K := t * t * ((s + 1) * t - s)

/-- The curve that eases out with this overshoot. -/
def outBackBy (s t : K) : K := (t - 1) * (t - 1) * ((s + 1) * (t - 1) + s) + 1

omit [LinearOrder K] in
theorem inBackBy_eq_mirror (s : K) : inBackBy s = mirror (outBackBy s) := by
  funext t
  simp only [inBackBy, mirror, outBackBy]
  ring

end Shapes

end Curve

variable {K : Type} [Field K] [LinearOrder K] [FloorRing K] [Elementary K]

namespace Curve

/-! ## The curves that ease in -/

theorem inQuad_eq_mirror : (inQuad : K → K) = mirror outQuad := by
  funext t
  simp only [inQuad, mirror, outQuad]
  norm_num
  ring

theorem inCubic_eq_mirror : (inCubic : K → K) = mirror outCubic := by
  funext t
  simp only [inCubic, mirror, outCubic, cube, Scalar.exact_one]
  ring

theorem inCirc_eq_mirror : (inCirc : K → K) = mirror outCirc := by
  funext t
  simp only [inCirc, mirror, outCirc, Scalar.exact_one]
  congr 3
  ring

theorem inBounce_eq_mirror : (inBounce : K → K) = mirror outBounce := by
  funext t
  simp only [inBounce, mirror, Scalar.exact_one]

theorem inBack_eq : (inBack : K → K) = inBackBy 1.70158 := by
  funext t
  simp only [inBack, inBackBy, overshoot, Scalar.exact_one]

theorem outBack_eq : (outBack : K → K) = outBackBy 1.70158 := by
  funext t
  simp only [outBack, outBackBy, overshoot, Scalar.exact_one]

end Curve

/-! ## Families -/

namespace Easing

open Curve

/-- The families of curves that come without roots. -/
inductive Family where
  | quad
  | cubic
  | back
  | bounce
  deriving DecidableEq

namespace Family

def easeIn : Family → Easing
  | .quad => .inQuad
  | .cubic => .inCubic
  | .back => .inBack
  | .bounce => .inBounce

def easeOut : Family → Easing
  | .quad => .outQuad
  | .cubic => .outCubic
  | .back => .outBack
  | .bounce => .outBounce

def easeInOut : Family → Easing
  | .quad => .inOutQuad
  | .cubic => .inOutCubic
  | .back => .inOutBack
  | .bounce => .inOutBounce

/-- The curve that is the second half of the two-sided one. -/
def half : Family → K → K
  | .back => outBackBy (1.70158 * 1.525)
  | family => family.easeOut.apply

/-- The piece of the two-sided curve before the middle. -/
def firstPiece : Family → K → K
  | .quad, t => t * t * 2.0
  | .cubic, t => 0.5 * cube (t * 2.0)
  | .back, t =>
    let s : K := wideOvershoot
    let u := t * 2.0
    0.5 * (u * u * ((s + 1.0) * u - s))
  | .bounce, t => 0.5 - Curve.outBounce (1.0 - t * 2.0) * 0.5

/-- The piece of the two-sided curve from the middle on. -/
def secondPiece : Family → K → K
  | .quad, t => -2.0 * t * t + 4.0 * t - 1.0
  | .cubic, t => 0.5 * cube (t * 2.0 - 2.0) + 1.0
  | .back, t =>
    let s : K := wideOvershoot
    let v := t * 2.0 - 2.0
    0.5 * (v * v * ((s + 1.0) * v + s) + 2.0)
  | .bounce, t => Curve.outBounce (t * 2.0 - 1.0) * 0.5 + 0.5

theorem easeIn_eq_mirror (family : Family) :
    (family.easeIn.apply : K → K) = mirror family.easeOut.apply := by
  cases family with
  | quad => exact inQuad_eq_mirror
  | cubic => exact inCubic_eq_mirror
  | back =>
      show Curve.inBack = mirror Curve.outBack
      rw [inBack_eq, outBack_eq, inBackBy_eq_mirror]
  | bounce => exact inBounce_eq_mirror

theorem firstPiece_eq (family : Family) (t : K) :
    family.firstPiece t = mirror family.half (2 * t) / 2 := by
  cases family with
  | quad =>
      simp only [firstPiece, half, easeOut, apply, ← inQuad_eq_mirror, Curve.inQuad]
      norm_num
      ring
  | cubic =>
      simp only [firstPiece, half, easeOut, apply, ← inCubic_eq_mirror, Curve.inCubic, cube]
      norm_num
      ring
  | back =>
      simp only [firstPiece, half, ← inBackBy_eq_mirror, inBackBy, wideOvershoot, overshoot]
      norm_num
      ring
  | bounce =>
      simp only [firstPiece, half, easeOut, apply, mirror]
      norm_num
      rw [mul_comm t 2]
      ring

theorem secondPiece_eq (family : Family) (t : K) :
    family.secondPiece t = family.half (2 * t - 1) / 2 + 1 / 2 := by
  cases family with
  | quad =>
      simp only [secondPiece, half, easeOut, apply, Curve.outQuad]
      norm_num
      ring
  | cubic =>
      simp only [secondPiece, half, easeOut, apply, Curve.outCubic, cube]
      norm_num
      ring
  | back =>
      simp only [secondPiece, half, outBackBy, wideOvershoot, overshoot]
      norm_num
      ring
  | bounce =>
      simp only [secondPiece, half, easeOut, apply]
      norm_num
      rw [mul_comm t 2]
      ring

section Ordered

variable [IsStrictOrderedRing K]

theorem half_zero (family : Family) : (family.half 0 : K) = 0 := by
  cases family with
  | quad =>
      simp only [half, easeOut, apply, Curve.outQuad]
      norm_num
  | cubic =>
      simp only [half, easeOut, apply, Curve.outCubic, cube]
      norm_num
  | back =>
      simp only [half, outBackBy]
      ring
  | bounce =>
      have hfirst : (0 : K) < 1.0 / bounceSpan := by norm_num [bounceSpan]
      show Curve.outBounce (0 : K) = 0
      rw [Curve.outBounce, if_pos hfirst]
      ring

/-- The two-sided curve changes pieces in the middle. -/
theorem easeInOut_eq_pieced (family : Family) :
    (family.easeInOut.apply : K → K) = pieced [(1 / 2, family.firstPiece)] family.secondPiece := by
  funext t
  have hmiddle : t < 0.5 ↔ t < 1 / 2 := by
    norm_num
  have hdoubled : t * 2.0 < 1.0 ↔ t < 1 / 2 := by
    rw [lt_div_iff₀ two_pos]
    norm_num
  cases family with
  | quad => exact if_congr hmiddle rfl rfl
  | cubic => exact if_congr hdoubled rfl rfl
  | back => exact if_congr hdoubled rfl rfl
  | bounce => exact if_congr hmiddle rfl rfl

theorem easeInOut_eq_glue (family : Family) :
    (family.easeInOut.apply : K → K) = glue (mirror family.half) family.half := by
  funext t
  rw [easeInOut_eq_pieced]
  exact if_congr Iff.rfl (family.firstPiece_eq t) (family.secondPiece_eq t)

omit [IsStrictOrderedRing K] in
/-- Only the two-sided overshooting curve has a width of its own. -/
theorem half_of_ne_back {family : Family} (h : family ≠ .back) :
    (family.half : K → K) = family.easeOut.apply := by
  cases family with
  | back => exact absurd rfl h
  | _ => rfl

theorem easeInOut_eq_glue_of_ne_back {family : Family} (h : family ≠ .back) :
    (family.easeInOut.apply : K → K) = glue family.easeIn.apply family.easeOut.apply := by
  rw [family.easeInOut_eq_glue, family.easeIn_eq_mirror, half_of_ne_back h]

theorem meet_pieces (family : Family) :
    Meet [((1 / 2 : K), family.firstPiece)] family.secondPiece := by
  refine ⟨?_, trivial⟩
  show family.firstPiece (1 / 2) = family.secondPiece (1 / 2)
  have hone : 2 * (1 / 2 : K) = 1 := by norm_num
  have hzero : (1 : K) - 1 = 0 := sub_self 1
  rw [firstPiece_eq, secondPiece_eq, hone, mirror, hzero, half_zero]
  norm_num

end Ordered

end Family

end Easing

/-! ## The bounce -/

namespace Curve

/-- A hop around its lowest point. -/
def hop (centre lift t : K) : K := bounceGain * (t - centre) * (t - centre) + lift

/-- The hops but for the last one, and where they end. -/
def hops : List (K × (K → K)) :=
  [(1.0 / bounceSpan, fun t => bounceGain * t * t),
    (2.0 / bounceSpan, hop (1.5 / bounceSpan) 0.75),
    (2.5 / bounceSpan, hop (2.25 / bounceSpan) 0.9375)]

def lastHop : K → K := hop (2.625 / bounceSpan) 0.984375

theorem outBounce_eq_pieced : (outBounce : K → K) = pieced hops lastHop := rfl

theorem meet_hops [IsStrictOrderedRing K] : Meet (hops : List (K × (K → K))) lastHop := by
  refine ⟨?_, ?_, ?_, trivial⟩
  all_goals
    simp only [foremost, hop, lastHop, bounceGain, bounceSpan]
    norm_num

open Easing (Family)

/-- **The curves of a family are made from one of them.** For quadratic, cubic, overshooting and
bouncing curves and on the whole line, the curve that eases in is the one that eases out, seen from
its end, and the curve that does both is its own mirror image. That curve consists of the other two
at half their size, where the overshooting one takes a wider overshoot. The pieces of the bounce and
of the two-sided curves meet at their seams. -/
theorem families_symmetric [IsStrictOrderedRing K] :
    (∀ (family : Family) (t : K),
      family.easeIn.apply t = 1 - family.easeOut.apply (1 - t)) ∧
    (∀ (family : Family) (t : K),
      family.easeInOut.apply t + family.easeInOut.apply (1 - t) = 1) ∧
    (∀ family : Family, family ≠ .back → ∀ t : K, family.easeInOut.apply t =
      if t < 1 / 2 then family.easeIn.apply (2 * t) / 2
      else family.easeOut.apply (2 * t - 1) / 2 + 1 / 2) ∧
    ((inBack : K → K) = inBackBy 1.70158 ∧ (outBack : K → K) = outBackBy 1.70158 ∧
      ∀ t : K, inOutBack t =
        if t < 1 / 2 then inBackBy (1.70158 * 1.525) (2 * t) / 2
        else outBackBy (1.70158 * 1.525) (2 * t - 1) / 2 + 1 / 2) ∧
    ((outBounce : K → K) = pieced hops lastHop ∧ Meet (hops : List (K × (K → K))) lastHop) ∧
    ∀ family : Family,
      (family.easeInOut.apply : K → K) = pieced [(1 / 2, family.firstPiece)] family.secondPiece ∧
      Meet [((1 / 2 : K), family.firstPiece)] family.secondPiece := by
  refine ⟨?_, ?_, ?_, ⟨?_, ?_, ?_⟩, ⟨?_, ?_⟩, ?_⟩
  · intro family t
    rw [family.easeIn_eq_mirror]
    rfl
  · intro family t
    rw [family.easeInOut_eq_glue]
    exact glue_mirror_add _ family.half_zero t
  · intro family hfamily t
    exact congrFun (Family.easeInOut_eq_glue_of_ne_back hfamily) t
  · exact inBack_eq
  · exact outBack_eq
  · intro t
    rw [inBackBy_eq_mirror]
    exact congrFun (Family.easeInOut_eq_glue .back) t
  · exact outBounce_eq_pieced
  · exact meet_hops
  · intro family
    exact ⟨family.easeInOut_eq_pieced, family.meet_pieces⟩

/-- The symmetries of real curves, at points on both sides of the middle. -/
theorem families_symmetric_real :
    Easing.inBounce.apply (1 / 4 : ℝ) = 1 - Easing.outBounce.apply (3 / 4) ∧
    Easing.inOutBack.apply (-1 : ℝ) + Easing.inOutBack.apply 2 = 1 ∧
    Easing.inOutCubic.apply (3 / 4 : ℝ) = 15 / 16 ∧
    Meet (hops : List (ℝ × (ℝ → ℝ))) lastHop := by
  obtain ⟨mirrored, balanced, glued, -, ⟨-, meet⟩, -⟩ := families_symmetric (K := ℝ)
  refine ⟨?_, ?_, ?_, meet⟩
  · have h := mirrored .bounce (1 / 4)
    norm_num at h
    exact h
  · have h := balanced .back (-1)
    norm_num at h
    exact h
  · have h := glued .cubic (by decide) (3 / 4)
    rw [if_neg (by norm_num)] at h
    refine h.trans ?_
    show outCubic (2 * (3 / 4 : ℝ) - 1) / 2 + 1 / 2 = 15 / 16
    norm_num [outCubic, cube]

end Curve

end Inbetween
