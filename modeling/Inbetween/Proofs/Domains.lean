import Inbetween.Easing.Mode
import Inbetween.Extend
import Inbetween.Proofs.Rationals

/-!
# Where circles are defined

All extend modes but extrapolation bring ratios of moderate size back into the range from 0 to 1, up
to the tolerance of repetition, which lets ratios through that are a little above 1. The circles
take the square root of a number that is negative outside of their range. Of all of them only the
one that eases in is not made for ratios above 1.
-/

namespace Inbetween

open Binary64

/-! ## Normalized ratios -/

namespace Extend

variable {t u : Float}

theorem tolerance_eq : (tolerance : Float).isFinite = true ∧
    1 ≤ toRat tolerance ∧ toRat tolerance ≤ 3 / 2 := by
  decide +kernel

theorem toRat_trunc_of_nonneg (ht : t.isFinite = true) (h : 0 ≤ toRat t) :
    (Scalar.trunc t).isFinite = true ∧ toRat (Scalar.trunc t) = ⌊toRat t⌋ := by
  have hfloor : Scalar.towardZero (toRat t) = ⌊toRat t⌋ := if_neg (not_lt.mpr h)
  rw [← hfloor]
  exact toRat_trunc ht

theorem toRat_trunc_of_neg (ht : t.isFinite = true) (h : toRat t < 0) :
    (Scalar.trunc t).isFinite = true ∧ toRat (Scalar.trunc t) = ⌈toRat t⌉ := by
  have hceil : Scalar.towardZero (toRat t) = ⌈toRat t⌉ := if_pos h
  rw [← hceil]
  exact toRat_trunc ht

theorem trunc_of_nonneg (ht : t.isFinite = true) (h : 0 ≤ toRat t) :
    (Scalar.trunc t).isFinite = true ∧
      ∃ n : ℤ, toRat (Scalar.trunc t) = n ∧ n ≤ toRat t ∧ toRat t < n + 1 := by
  obtain ⟨hfinite, htrunc⟩ := toRat_trunc_of_nonneg ht h
  exact ⟨hfinite, _, htrunc, Int.floor_le _, Int.lt_floor_add_one _⟩

theorem trunc_of_neg (ht : t.isFinite = true) (h : toRat t < 0) :
    (Scalar.trunc t).isFinite = true ∧
      ∃ n : ℤ, toRat (Scalar.trunc t) = n ∧ n - 1 < toRat t ∧ toRat t ≤ n := by
  obtain ⟨hfinite, htrunc⟩ := toRat_trunc_of_neg ht h
  refine ⟨hfinite, _, htrunc, ?_, Int.le_ceil _⟩
  have hceil := Int.ceil_lt_add_one (toRat t)
  linarith

theorem between_sub_trunc (ht : t.isFinite = true) (h : 0 ≤ toRat t) :
    Between 0 1 (t - Scalar.trunc t) := by
  obtain ⟨hfinite, n, htrunc, hlow, hhigh⟩ := trunc_of_nonneg ht h
  refine between_sub (by decide) (by decide) ht hfinite ?_ ?_
  all_goals
    rw [htrunc]
    push_cast
    linarith

/-- A negative ratio is raised by one first. That sum may be rounded, but not past the whole numbers
on either side of it. -/
theorem between_add_sub_trunc (ht : t.isFinite = true) (h : toRat t < 0)
    (hsize : -2 ^ 52 < toRat t) : Between 0 1 (1.0 + t - Scalar.trunc t) := by
  obtain ⟨hfinite, n, htrunc, hlow, hhigh⟩ := trunc_of_neg ht h
  -- `n` and `n + 1` are numbers of the format, as `t` is of moderate size.
  have hn : -2 ^ 52 < n := by exact_mod_cast hsize.trans_le hhigh
  have hn' : n < 1 := by exact_mod_cast (by linarith : (n : ℚ) < 1)
  have hraised : Between n (n + 1) (1.0 + t) := by
    refine between_add (abs_le.mpr ⟨by omega, by omega⟩) (abs_le.mpr ⟨by omega, by omega⟩)
      one_eq.1 ht ?_ ?_
    all_goals
      rw [one_eq.2]
      push_cast
      linarith
  have hlower := hraised.lower
  have hupper := hraised.upper
  push_cast at hupper
  refine between_sub (by decide) (by decide) hraised.finite hfinite ?_ ?_
  all_goals
    rw [htrunc]
    push_cast
    linarith

/-- The tolerance lets ratios through as they are. -/
theorem between_wrap (ht : t.isFinite = true) (hsize : -2 ^ 52 < toRat t) :
    Between 0 1 (wrap t) ∨ wrap t = t ∧ 1 < toRat t ∧ t ≤ tolerance := by
  obtain ⟨htolerance, habove, -⟩ := tolerance_eq
  rw [wrap]
  split
  · rename_i hover
    have hgt : toRat tolerance < toRat t := (lt_iff htolerance ht).mp hover
    exact .inl (between_sub_trunc ht (by linarith))
  · rename_i hover
    have hle : toRat t ≤ toRat tolerance := (not_lt_iff htolerance ht).mp hover
    split
    · rename_i hneg
      exact .inl (between_add_sub_trunc ht ((lt_zero_iff ht).mp hneg) hsize)
    · rename_i hneg
      have hnonneg : 0 ≤ toRat t := (not_lt_zero_iff ht).mp hneg
      rcases le_or_gt (toRat t) 1 with hone | hone
      · exact .inl (between_zero_one ht hnonneg hone)
      · exact .inr ⟨rfl, hone, (le_iff ht htolerance).mpr hle⟩

theorem between_one_sub (h : Between 0 1 t) : Between 0 1 (1.0 - t) := by
  have hlow := h.nonneg
  have hhigh := h.le_one
  refine between_sub (by decide) (by decide) one_eq.1 h.finite ?_ ?_
  all_goals
    rw [one_eq.2]
    push_cast
    linarith

theorem size_nonneg (ht : t.isFinite = true) :
    (if t < 0.0 then -t else t).isFinite = true ∧ 0 ≤ toRat (if t < 0.0 then -t else t) := by
  split
  · rename_i h
    obtain ⟨hfinite, hvalue⟩ := toRat_neg ht
    exact ⟨hfinite, by rw [hvalue]; exact neg_nonneg.mpr ((lt_zero_iff ht).mp h).le⟩
  · rename_i h
    exact ⟨ht, (not_lt_zero_iff ht).mp h⟩

/-- Whichever way the cycle runs. -/
theorem between_fold (ht : t.isFinite = true) : Between 0 1 (fold t) := by
  obtain ⟨hfinite, hnonneg⟩ := size_nonneg ht
  have hpart := between_sub_trunc hfinite hnonneg
  simp only [fold]
  generalize (if t < 0.0 then -t else t) = size at hpart ⊢
  split
  · exact between_one_sub hpart
  · exact hpart

/-- Ratios of moderate size are brought into the range from 0 to 1, or they are in the tolerance of
repetition. -/
theorem between_normalize {mode : Extend} (hmode : mode ≠ .extrapolate) (ht : t.isFinite = true)
    (hsize : -2 ^ 52 < toRat t) (h : mode.normalize t = .along u) :
    Between 0 1 u ∨ mode = .repeating ∧ u = t ∧ 1 < toRat t ∧ t ≤ tolerance := by
  cases mode with
  | constant =>
      simp only [normalize] at h
      split at h
      · cases h
      · split at h
        · cases h
        · rename_i hlow hhigh
          obtain rfl : t = u := Phase.along.inj h
          exact .inl (between_zero_one ht ((not_lt_zero_iff ht).mp hlow)
            ((not_one_lt_iff ht).mp hhigh))
  | extrapolate => exact absurd rfl hmode
  | repeating =>
      obtain rfl : wrap t = u := Phase.along.inj h
      refine (between_wrap ht hsize).imp_right fun ⟨hsame, hrange⟩ => ⟨rfl, hsame, hrange⟩
  | reverse =>
      obtain rfl : fold t = u := Phase.along.inj h
      exact .inl (between_fold ht)

end Extend

/-! ## Circles -/

/-- What a circle takes the square root of. -/
def Curve.radicand {α : Type} [Scalar α] (t : α) : α := 1.0 - t * t

/-- What the square root is taken of at a ratio, for the curves that take one. -/
def Easing.radicand? {α : Type} [Scalar α] : Easing → α → Option α
  | .inCirc, t => some (Curve.radicand t)
  | .outCirc, t => some (Curve.radicand (t - 1.0))
  | .inOutCirc, t =>
    let u := t * 2.0
    some (Curve.radicand (if u < 1.0 then u else u - 2.0))
  | _, _ => none

section Circles

variable {t : Float}

theorem between_radicand (h : Between (-1) 1 t) : Between 0 1 (Curve.radicand t) := by
  have hlower := h.lower
  have hupper := h.upper
  push_cast at hlower hupper
  have hsquare : Between 0 1 (t * t) := by
    refine between_mul (by decide) (by decide) h.finite h.finite ?_ ?_
    all_goals
      push_cast
      nlinarith
  exact Extend.between_one_sub hsquare

theorem between_outCirc (ht : t.isFinite = true) (hlow : 0 ≤ toRat t) (hhigh : toRat t ≤ 3 / 2) :
    Between (-1) 1 (t - 1.0) := by
  refine between_sub (by decide) (by decide) ht one_eq.1 ?_ ?_
  all_goals
    rw [one_eq.2]
    push_cast
    linarith

theorem between_inOutCirc (ht : t.isFinite = true) (hlow : 0 ≤ toRat t) (hhigh : toRat t ≤ 3 / 2) :
    Between (-1) 1 (if t * 2.0 < 1.0 then t * 2.0 else t * 2.0 - 2.0) := by
  have hdouble : Between 0 3 (t * 2.0) := by
    refine between_mul (by decide) (by decide) ht two_eq.1 ?_ ?_
    all_goals
      rw [two_eq.2]
      push_cast
      linarith
  have hlower := hdouble.lower
  have hupper := hdouble.upper
  push_cast at hlower hupper
  split
  · rename_i h
    have hlt := (lt_one_iff hdouble.finite).mp h
    exact ⟨hdouble.finite, by push_cast; linarith, by push_cast; linarith⟩
  · rename_i h
    have hge := (not_lt_one_iff hdouble.finite).mp h
    refine between_sub (by decide) (by decide) hdouble.finite two_eq.1 ?_ ?_
    all_goals
      rw [two_eq.2]
      push_cast
      linarith

/-- Above 1 there is nothing left under the root: the square is not below the ratio, and the
difference of different numbers is not rounded to zero. -/
theorem radicand_neg (ht : t.isFinite = true) (hlow : 1 < toRat t) (hhigh : toRat t ≤ 3 / 2) :
    (Curve.radicand t).isFinite = true ∧ toRat (Curve.radicand t) < 0 := by
  have hsize : |toRat t * toRat t| ≤ 2 ^ (1023 : ℤ) :=
    abs_le_of_between (a := 0) (b := 3) (by decide) (by decide) (by push_cast; nlinarith)
      (by push_cast; nlinarith)
  -- The ratio is a number of the format, so its square is not rounded below it.
  have hsquare := isRounded_mul ht ht hsize
  have habove : toRat t ≤ toRat (t * t) :=
    hsquare.rounds.below _ (onGrid_toRat t ht) (by nlinarith)
  have hbelow := (hsquare.between (a := 0) (b := 3) (by decide) (by decide)
    (by push_cast; nlinarith) (by push_cast; nlinarith)).upper
  push_cast at hbelow
  have hdifference : Between (-2) 0 (Curve.radicand t) := by
    refine between_sub (by decide) (by decide) one_eq.1 hsquare.finite ?_ ?_
    all_goals
      rw [one_eq.2]
      push_cast
      linarith
  have hne : toRat (Curve.radicand t) ≠ 0 := by
    refine toRat_sub_ne_zero one_eq.1 hsquare.finite ?_ ?_
    · rw [one_eq.2]
      linarith
    · rw [one_eq.2]
      exact abs_le_of_between (a := -2) (b := 0) (by decide) (by decide) (by push_cast; linarith)
        (by push_cast; linarith)
  exact ⟨hdifference.finite, lt_of_le_of_ne (by simpa using hdifference.upper) hne⟩

/-- What a root is taken of is negative above 1 on the circle that eases in, and nowhere else. -/
theorem radicand_neg_iff {mode : Easing} {r : Float} (ht : t.isFinite = true) (hlow : 0 ≤ toRat t)
    (hhigh : toRat t ≤ 3 / 2) (h : mode.radicand? t = some r) :
    r < 0.0 ↔ mode = .inCirc ∧ 1 < toRat t := by
  have hnot : ∀ r : Float, Between 0 1 r → ¬ r < 0.0 := fun r hr =>
    (not_lt_zero_iff hr.finite).mpr hr.nonneg
  cases mode with
  | inCirc =>
      obtain rfl : Curve.radicand t = r := Option.some.inj h
      by_cases hone : 1 < toRat t
      · obtain ⟨hfinite, hneg⟩ := radicand_neg ht hone hhigh
        exact iff_of_true ((lt_zero_iff hfinite).mpr hneg) ⟨rfl, hone⟩
      · have hrange : Between (-1) 1 t :=
          ⟨ht, by push_cast; linarith, by push_cast; linarith⟩
        exact iff_of_false (hnot _ (between_radicand hrange)) fun h => hone h.2
  | outCirc =>
      obtain rfl : Curve.radicand (t - 1.0) = r := Option.some.inj h
      exact iff_of_false (hnot _ (between_radicand (between_outCirc ht hlow hhigh))) nofun
  | inOutCirc =>
      obtain rfl := Option.some.inj h
      exact iff_of_false (hnot _ (between_radicand (between_inOutCirc ht hlow hhigh))) nofun
  | _ => cases h

/-! Progress along a circle is a number as long as the root is. -/

theorem isNaN_sqrt_of_between (h : Between 0 1 t) : (Scalar.sqrt t).isNaN = false :=
  Bool.eq_false_iff.mpr fun hnan => not_lt.mpr h.nonneg ((isNaN_float_sqrt h.finite).mp hnan)

theorem isNaN_inCirc_of_neg (h : (Curve.radicand t).isFinite = true)
    (hneg : toRat (Curve.radicand t) < 0) : (Curve.inCirc t).isNaN = true :=
  isNaN_float_sub_right _ ((isNaN_float_sqrt h).mpr hneg)

theorem isNaN_inCirc_of_between (h : Between (-1) 1 t) : (Curve.inCirc t).isNaN = false :=
  isNaN_float_sub (isNaN_of_isFinite one_eq.1) (isNaN_sqrt_of_between (between_radicand h))
    (.inl one_eq.1)

theorem isNaN_outCirc (ht : t.isFinite = true) (hlow : 0 ≤ toRat t) (hhigh : toRat t ≤ 3 / 2) :
    (Curve.outCirc t).isNaN = false :=
  isNaN_sqrt_of_between (between_radicand (between_outCirc ht hlow hhigh))

theorem isNaN_inOutCirc (ht : t.isFinite = true) (hlow : 0 ≤ toRat t) (hhigh : toRat t ≤ 3 / 2) :
    (Curve.inOutCirc t).isNaN = false := by
  have hu := between_inOutCirc ht hlow hhigh
  have hhalf : toRat 0.5 ≠ 0 := by rw [half_eq.2]; norm_num
  have hone := isNaN_of_isFinite one_eq.1
  simp only [Curve.inOutCirc]
  split
  · rename_i h
    rw [if_pos h] at hu
    have hroot := isNaN_sqrt_of_between (between_radicand hu)
    exact (isNaN_float_mul (isNaN_float_sub hone hroot (.inl one_eq.1)) half_eq.1 hhalf).2
  · rename_i h
    rw [if_neg h] at hu
    have hroot := isNaN_sqrt_of_between (between_radicand hu)
    exact (isNaN_float_mul (isNaN_float_add hroot hone (.inr one_eq.1)) half_eq.1 hhalf).2

end Circles

end Inbetween
