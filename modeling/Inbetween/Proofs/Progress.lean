import Inbetween.Proofs.Domains
import Inbetween.Proofs.Plans

/-!
# Progress along curves

Progress is finite along the curves that only add and multiply, as nothing in them grows out of the
range of the format. Along the others it is a number if the elementary functions give numbers, and
if there is no negative number under a root.
-/

namespace Inbetween

open Binary64

/-! ## Polynomials

Progress along the curves that take no roots and no elementary functions is finite for all ratios of
size 2 or less, since nothing in them grows out of the range of the format. -/

section Polynomials

variable {t : Float}

/-- The constants of the curves. -/
theorem bounded_constants :
    (Bounded 0 (0.5 : Float) ∧ Bounded 0 (1.0 : Float) ∧ Bounded 1 (2.0 : Float) ∧
      Bounded 2 (4.0 : Float)) ∧
    (Bounded 1 (Scalar.pi / 2.0 : Float) ∧ Bounded 2 (Scalar.pi : Float)) ∧
    (Bounded 2 (Curve.overshoot : Float) ∧ Bounded 2 (Curve.wideOvershoot : Float)) ∧
    Bounded 3 (Curve.bounceGain : Float) ∧
      (Bounded 0 (1.5 / Curve.bounceSpan : Float) ∧ Bounded 0 (0.75 : Float)) ∧
      (Bounded 0 (2.25 / Curve.bounceSpan : Float) ∧ Bounded 0 (0.9375 : Float)) ∧
      Bounded 0 (2.625 / Curve.bounceSpan : Float) ∧ Bounded 0 (0.984375 : Float) := by
  decide +kernel

theorem bounded_half : Bounded 0 (0.5 : Float) := bounded_constants.1.1

theorem bounded_one : Bounded 0 (1.0 : Float) := bounded_constants.1.2.1

theorem bounded_two : Bounded 1 (2.0 : Float) := bounded_constants.1.2.2.1

theorem bounded_quarter : Bounded 1 (Scalar.pi / 2.0 : Float) := bounded_constants.2.1.1

theorem bounded_pi : Bounded 2 (Scalar.pi : Float) := bounded_constants.2.1.2

theorem isFinite_inQuad (h : Bounded 1 t) : (Curve.inQuad t).isFinite = true :=
  (h.mul h (by decide)).finite

theorem isFinite_outQuad (h : Bounded 1 t) : (Curve.outQuad t).isFinite = true :=
  ((h.neg.mul h (by decide)).add (bounded_two.mul h (by decide)) (by decide)).finite

theorem isFinite_inOutQuad (h : Bounded 1 t) : (Curve.inOutQuad t).isFinite = true := by
  have hfour := bounded_constants.1.2.2.2
  rw [Curve.inOutQuad]
  split
  · exact ((h.mul h (by decide)).mul bounded_two (by decide)).finite
  · have hsquare := (bounded_two.neg.mul h (by decide)).mul h (by decide)
    exact ((hsquare.add (hfour.mul h (by decide)) (by decide)).sub bounded_one (by decide)).finite

theorem bounded_cube (h : Bounded 3 t) : Bounded 9 (Curve.cube t) :=
  (h.mul h (by decide)).mul h (by decide)

theorem isFinite_inCubic (h : Bounded 1 t) : (Curve.inCubic t).isFinite = true :=
  (bounded_cube (h.mono (by decide))).finite

theorem isFinite_outCubic (h : Bounded 1 t) : (Curve.outCubic t).isFinite = true := by
  have hshifted := (h.sub bounded_one (by decide)).mono (by decide : _ ≤ 3)
  exact ((bounded_cube hshifted).add bounded_one (by decide)).finite

theorem isFinite_inOutCubic (h : Bounded 1 t) : (Curve.inOutCubic t).isFinite = true := by
  have hdouble := h.mul bounded_two (by decide)
  simp only [Curve.inOutCubic]
  split
  · have hcube := bounded_cube (hdouble.mono (by decide))
    exact (bounded_half.mul hcube (by decide)).finite
  · have hcube := bounded_cube ((hdouble.sub bounded_two (by decide)).mono (by decide))
    exact ((bounded_half.mul hcube (by decide)).add bounded_one (by decide)).finite

/-- The linear factor of the overshooting curves. -/
theorem bounded_slope {s : Float} (hs : Bounded 2 s) (h : Bounded 3 t) :
    Bounded 6 ((s + 1.0) * t) :=
  (hs.add bounded_one (by decide)).mul h (by decide)

theorem bounded_overshoot : Bounded 2 (Curve.overshoot : Float) := bounded_constants.2.2.1.1

theorem bounded_wideOvershoot : Bounded 2 (Curve.wideOvershoot : Float) := bounded_constants.2.2.1.2

theorem isFinite_inBack (h : Bounded 1 t) : (Curve.inBack t).isFinite = true := by
  have hslope := bounded_slope bounded_overshoot (h.mono (by decide))
  have hswing := (h.mul h (by decide)).mul (hslope.sub bounded_overshoot (by decide)) (by decide)
  exact hswing.finite

theorem isFinite_outBack (h : Bounded 1 t) : (Curve.outBack t).isFinite = true := by
  have hu := h.sub bounded_one (by decide)
  have hslope := bounded_slope bounded_overshoot (hu.mono (by decide))
  have hswing := (hu.mul hu (by decide)).mul (hslope.add bounded_overshoot (by decide)) (by decide)
  exact (hswing.add bounded_one (by decide)).finite

theorem isFinite_inOutBack (h : Bounded 1 t) : (Curve.inOutBack t).isFinite = true := by
  have hu := h.mul bounded_two (by decide)
  simp only [Curve.inOutBack]
  split
  · have hslope := bounded_slope bounded_wideOvershoot (hu.mono (by decide))
    have hswing := (hu.mul hu (by decide)).mul (hslope.sub bounded_wideOvershoot (by decide))
      (by decide)
    exact (bounded_half.mul hswing (by decide)).finite
  · have hv := hu.sub bounded_two (by decide)
    have hslope := bounded_slope bounded_wideOvershoot (hv.mono (by decide))
    have hswing := (hv.mul hv (by decide)).mul (hslope.add bounded_wideOvershoot (by decide))
      (by decide)
    exact (bounded_half.mul (hswing.add bounded_two (by decide)) (by decide)).finite

/-- A hop of a bounce: a parabola around `center`, lifted by `lift`. -/
theorem bounded_hop {center lift : Float} (h : Bounded 3 t)
    (hhop : Bounded 0 center ∧ Bounded 0 lift) :
    Bounded 12 (Curve.bounceGain * (t - center) * (t - center) + lift) := by
  obtain ⟨-, -, -, hgain, -⟩ := bounded_constants
  have hu := h.sub hhop.1 (by decide)
  exact ((hgain.mul hu (by decide)).mul hu (by decide)).add hhop.2 (by decide)

theorem bounded_outBounce (h : Bounded 3 t) : Bounded 12 (Curve.outBounce t) := by
  obtain ⟨-, -, -, hgain, hsecond, hthird, hlast⟩ := bounded_constants
  rw [Curve.outBounce]
  split
  · exact ((hgain.mul h (by decide)).mul h (by decide)).mono (by decide)
  split
  · exact bounded_hop h hsecond
  split
  · exact bounded_hop h hthird
  · exact bounded_hop h hlast

theorem isFinite_outBounce (h : Bounded 1 t) : (Curve.outBounce t).isFinite = true :=
  (bounded_outBounce (h.mono (by decide))).finite

theorem isFinite_inBounce (h : Bounded 1 t) : (Curve.inBounce t).isFinite = true := by
  have hbounce := bounded_outBounce ((bounded_one.sub h (by decide)).mono (by decide))
  exact (bounded_one.sub hbounce (by decide)).finite

theorem isFinite_inOutBounce (h : Bounded 1 t) : (Curve.inOutBounce t).isFinite = true := by
  have hdouble := h.mul bounded_two (by decide)
  rw [Curve.inOutBounce]
  split
  · have hbounce := bounded_outBounce (bounded_one.sub hdouble (by decide))
    exact (bounded_half.sub (hbounce.mul bounded_half (by decide)) (by decide)).finite
  · have hbounce := bounded_outBounce (hdouble.sub bounded_one (by decide))
    exact ((hbounce.mul bounded_half (by decide)).add bounded_half (by decide)).finite

end Polynomials

/-! ## Elementary functions

The sine, the cosine and the exponential are those of the platform, of which little is asked. -/

/-- The elementary functions of a platform. -/
structure Platform where
  sin : Float → Float
  cos : Float → Float
  exp : Float → Float

namespace Platform

/-- Binary64 numbers with these functions as their elementary ones. -/
@[reducible] def scalar (p : Platform) : Scalar Float :=
  { instScalarFloat with sin := p.sin, cos := p.cos, exp := p.exp }

/-- The functions that the library runs on. -/
def native : Platform := ⟨Float.sin, Float.cos, Float.exp⟩

theorem scalar_native : native.scalar = instScalarFloat := rfl

/-- Progress along the curve of a mode. -/
def progress (p : Platform) (mode : Easing) (t : Float) : Float :=
  @Easing.apply Float p.scalar mode t

/-- The functions give numbers for finite numbers, and the exponential is between 1 and 3 at 1. -/
structure IsSound (p : Platform) : Prop where
  sin : ∀ x : Float, x.isFinite = true → (p.sin x).isNaN = false
  cos : ∀ x : Float, x.isFinite = true → (p.cos x).isNaN = false
  exp : ∀ x : Float, x.isFinite = true → (p.exp x).isNaN = false
  exp_one : (p.exp 1.0).isFinite = true ∧ 1 < toRat (p.exp 1.0) ∧ toRat (p.exp 1.0) < 3

variable {p : Platform} {t : Float}

theorem isNaN_inSine (hp : p.IsSound) (h : Bounded 1 t) :
    (p.progress .inSine t).isNaN = false := by
  have hangle := (bounded_one.sub h (by decide)).mul bounded_quarter (by decide)
  exact isNaN_float_sub (isNaN_of_isFinite one_eq.1) (hp.sin _ hangle.finite) (.inl one_eq.1)

theorem isNaN_outSine (hp : p.IsSound) (h : Bounded 1 t) :
    (p.progress .outSine t).isNaN = false :=
  hp.sin _ (h.mul bounded_quarter (by decide)).finite

theorem isNaN_inOutSine (hp : p.IsSound) (h : Bounded 1 t) :
    (p.progress .inOutSine t).isNaN = false := by
  have hcos := isNaN_float_neg (hp.cos _ (h.mul bounded_pi (by decide)).finite)
  have hne : toRat 0.5 ≠ 0 := by rw [half_eq.2]; norm_num
  have hhalf := (isNaN_float_mul hcos half_eq.1 hne).1
  exact isNaN_float_add hhalf (isNaN_of_isFinite half_eq.1) (.inr half_eq.1)

theorem isNaN_exponential (hp : p.IsSound) (h : Bounded 1 t) :
    (p.progress .exponential t).isNaN = false := by
  obtain ⟨hfinite, hlow, hhigh⟩ := hp.exp_one
  -- What is divided by is not zero, as the exponential at 1 is above 1.
  have hdivisor : Between 0 2 (p.exp 1.0 - 1.0) := by
    refine between_sub (by decide) (by decide) hfinite one_eq.1 ?_ ?_
    all_goals
      rw [one_eq.2]
      push_cast
      linarith
  have hne : toRat (p.exp 1.0 - 1.0) ≠ 0 := by
    refine toRat_sub_ne_zero hfinite one_eq.1 (by rw [one_eq.2]; exact hlow.ne') ?_
    rw [one_eq.2]
    exact abs_le_of_between (a := 0) (b := 2) (by decide) (by decide) (by push_cast; linarith)
      (by push_cast; linarith)
  have hnumerator : (p.exp t - 1.0).isNaN = false :=
    isNaN_float_sub (hp.exp t h.finite) (isNaN_of_isFinite one_eq.1) (.inr one_eq.1)
  exact isNaN_float_div hnumerator hdivisor.finite hne

/-- Progress is a number along all curves but the circle that eases in. -/
theorem isNaN_progress (hp : p.IsSound) {mode : Easing} (hmode : mode ≠ .inCirc)
    (ht : t.isFinite = true) (hlow : 0 ≤ toRat t) (hhigh : toRat t ≤ 3 / 2) :
    (p.progress mode t).isNaN = false := by
  have h : Bounded 1 t := ⟨ht, abs_le.mpr ⟨by linarith, by linarith⟩⟩
  cases mode with
  | linear => exact isNaN_of_isFinite ht
  | cosine => exact isNaN_inSine hp h
  | sine => exact isNaN_outSine hp h
  | exponential => exact isNaN_exponential hp h
  | inCirc => exact absurd rfl hmode
  | outCirc => exact isNaN_outCirc ht hlow hhigh
  | inOutCirc => exact isNaN_inOutCirc ht hlow hhigh
  | inBack => exact isNaN_of_isFinite (isFinite_inBack h)
  | outBack => exact isNaN_of_isFinite (isFinite_outBack h)
  | inOutBack => exact isNaN_of_isFinite (isFinite_inOutBack h)
  | inBounce => exact isNaN_of_isFinite (isFinite_inBounce h)
  | outBounce => exact isNaN_of_isFinite (isFinite_outBounce h)
  | inOutBounce => exact isNaN_of_isFinite (isFinite_inOutBounce h)
  | inSine => exact isNaN_inSine hp h
  | outSine => exact isNaN_outSine hp h
  | inOutSine => exact isNaN_inOutSine hp h
  | inQuad => exact isNaN_of_isFinite (isFinite_inQuad h)
  | outQuad => exact isNaN_of_isFinite (isFinite_outQuad h)
  | inOutQuad => exact isNaN_of_isFinite (isFinite_inOutQuad h)
  | inCubic => exact isNaN_of_isFinite (isFinite_inCubic h)
  | outCubic => exact isNaN_of_isFinite (isFinite_outCubic h)
  | inOutCubic => exact isNaN_of_isFinite (isFinite_inOutCubic h)

end Platform

/-! ## Ratios handed to curves -/

section Progress

variable {t u : Float}

/-- **Of all curves only the circle that eases in leaves its domain, and only in the tolerance of
repetition.** Unless a mode extrapolates, ratios of moderate size are handed to the curves in the
range from 0 to 1, or a little above 1 if they are repeated. What the circles take the root of is
not negative then, and progress is a number, but for the circle that eases in at ratios above 1. -/
theorem progress_isNaN_iff {p : Platform} (hp : p.IsSound) {extend : Extend}
    (hextend : extend ≠ .extrapolate) (ht : t.isFinite = true) (hsize : |toRat t| < 2 ^ 52)
    (h : extend.normalize t = .along u) :
    ((0.0 ≤ u ∧ u ≤ 1.0) ∨ (extend = .repeating ∧ u = t ∧ 1.0 < t ∧ t ≤ Extend.tolerance)) ∧
    ∀ mode : Easing,
      (∀ r, mode.radicand? u = some r → (r < 0.0 ↔ mode = .inCirc ∧ 1.0 < u)) ∧
      ((p.progress mode u).isNaN = true ↔ mode = .inCirc ∧ 1.0 < u) := by
  have hrange := Extend.between_normalize hextend ht (neg_lt_of_abs_lt hsize) h
  -- All that the curves need to know of the ratio, whichever of the two it is.
  obtain ⟨hu, hlow, hhigh⟩ : u.isFinite = true ∧ 0 ≤ toRat u ∧ toRat u ≤ 3 / 2 := by
    rcases hrange with hu | ⟨-, rfl, hgt, hle⟩
    · have hone := hu.le_one
      exact ⟨hu.finite, hu.nonneg, by linarith⟩
    · have hle' := (le_iff ht Extend.tolerance_eq.1).mp hle
      exact ⟨ht, by linarith, hle'.trans Extend.tolerance_eq.2.2⟩
  have habove := one_lt_iff hu
  refine ⟨?_, fun mode => ?_⟩
  · rcases hrange with hbetween | ⟨hrepeats, hsame, hgt, hle⟩
    · left
      rw [le_iff zero_eq.1 hu, le_iff hu one_eq.1, zero_eq.2, one_eq.2]
      exact ⟨hbetween.nonneg, hbetween.le_one⟩
    · subst hsame
      exact .inr ⟨hrepeats, rfl, habove.mpr hgt, hle⟩
  · rw [habove]
    refine ⟨fun r hr => radicand_neg_iff hu hlow hhigh hr, ?_⟩
    by_cases hmode : mode = .inCirc
    · subst hmode
      by_cases hgt : 1 < toRat u
      · obtain ⟨hfinite, hneg⟩ := radicand_neg hu hgt hhigh
        exact iff_of_true (isNaN_inCirc_of_neg hfinite hneg) ⟨rfl, hgt⟩
      · have hunit : Between (-1) 1 u := ⟨hu, by push_cast; linarith, by push_cast; linarith⟩
        exact iff_of_false (Bool.eq_false_iff.mp (isNaN_inCirc_of_between hunit)) fun h => hgt h.2
    · exact iff_of_false (Bool.eq_false_iff.mp (p.isNaN_progress hp hmode hu hlow hhigh))
        fun h => hmode h.1

end Progress

namespace Overrun

/-! A repeated circle, a twenty-thousandth after the end of its first cycle. -/

def ratio : Float := 1.00005

/-- A platform that is right at the ends of the range. -/
def platform : Platform where
  sin x := if x == 0.0 then 0.0 else 1.0
  cos x := if x == 0.0 then 1.0 else 0.0
  exp x := if x == 0.0 then 1.0 else 2.718281828459045

theorem platform_isSound : platform.IsSound := by
  obtain ⟨⟨hzero, hone, he⟩, hexp⟩ : ((0.0 : Float).isNaN = false ∧ (1.0 : Float).isNaN = false ∧
      (2.718281828459045 : Float).isNaN = false) ∧
      (platform.exp 1.0).isFinite = true ∧ 1 < toRat (platform.exp 1.0) ∧
        toRat (platform.exp 1.0) < 3 := by
    decide +kernel
  refine ⟨fun x _ => ?_, fun x _ => ?_, fun x _ => ?_, hexp⟩
  all_goals simp only [platform]
  · split
    · exact hzero
    · exact hone
  · split
    · exact hone
    · exact hzero
  · split
    · exact hone
    · exact he

/-- It is handed to the curve as it is, and there is no number for it on one of the circles. -/
theorem only_inCirc_isNaN :
    Extend.repeating.normalize ratio = .along ratio ∧
      (platform.progress .inCirc ratio).isNaN = true ∧
      (platform.progress .outCirc ratio).isNaN = false := by
  obtain ⟨hfinite, hsize, hratio, habove⟩ : ratio.isFinite = true ∧ |toRat ratio| < 2 ^ 52 ∧
      Extend.repeating.normalize ratio = .along ratio ∧ 1.0 < ratio := by
    decide +kernel
  obtain ⟨-, hcurves⟩ := progress_isNaN_iff platform_isSound (by decide) hfinite hsize hratio
  refine ⟨hratio, (hcurves .inCirc).2.mpr ⟨rfl, habove⟩, ?_⟩
  exact Bool.eq_false_iff.mpr fun hnan => by cases ((hcurves .outCirc).2.mp hnan).1

/-- A tween that repeats is over its end by so little that it should still be there. It reports no
number. -/
theorem plan_isNaN :
    ∃ v : Float, Plan.sampleAt ⟨⟨0.0, 1.0, .inCirc, .repeating⟩, .fixed ratio⟩ 0.0 = .value v ∧
      v.isNaN = true :=
  ⟨_, rfl, by decide +kernel⟩

end Overrun

end Inbetween
