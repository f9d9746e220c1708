import Inbetween.Proofs.Domains
import Inbetween.Proofs.Quotients

/-!
# Cycles of any size

What is left of a ratio when whole cycles are taken off needs no rounding. But a tween that repeats
raises negative ratios by 1 before that. Up to `2 ^ 53` cycles before the start the sum needs no
rounding either, or it is small. Further out the numbers of the format are even, the 1 is lost or
becomes 2, and what is left of the ratio is 0 or 2.
-/

namespace Inbetween

namespace Binary64

/-! ## Whole numbers added -/

/-- A whole number that brings a number of the format closer to zero is added without rounding. -/
theorem OnGrid.add_intCast {r : ℚ} (h : OnGrid r) (z : ℤ) (hle : |r + z| ≤ |r|)
    (hsize : |r + z| ≤ 2 ^ 53) : OnGrid (r + z) := by
  obtain ⟨n, k, hn, hk, rfl⟩ := h
  rcases le_or_gt 0 k with hwhole | hfraction
  · obtain ⟨j, rfl⟩ := Int.eq_ofNat_of_zero_le hwhole
    have hcast : (n * 2 ^ (j : ℤ) + z : ℚ) = ((n * 2 ^ j + z : ℤ) : ℚ) := by
      push_cast
      rw [zpow_natCast]
    rw [hcast] at hsize ⊢
    exact onGrid_intCast (by exact_mod_cast hsize)
  · -- Both are counted by the same fraction of 1, and the count gets smaller.
    obtain ⟨j, rfl⟩ : ∃ j : ℕ, k = -j := ⟨(-k).toNat, by omega⟩
    have hpos : (0 : ℚ) < 2 ^ (-j : ℤ) := by positivity
    have hcount : (n * 2 ^ (-j : ℤ) + z : ℚ) = ((n + z * 2 ^ j : ℤ) : ℚ) * 2 ^ (-j : ℤ) := by
      push_cast
      rw [zpow_neg, zpow_natCast]
      field_simp
    rw [hcount, abs_mul, abs_mul] at hle
    have hless : |((n + z * 2 ^ j : ℤ) : ℚ)| ≤ |(n : ℚ)| :=
      le_of_mul_le_mul_right hle (abs_pos.mpr hpos.ne')
    have hless' : |n + z * 2 ^ j| ≤ |n| := by exact_mod_cast hless
    exact ⟨_, _, hless'.trans hn, hk, hcount⟩

theorem one_le_largest : 1 ≤ largest :=
  (one_le_zpow₀ one_le_two (by decide)).trans two_zpow_le_largest

/-! ## Ties -/

/-- From `2 ^ 53` on, the numbers of the format are even. -/
theorem OnGrid.even_of_far {r : ℚ} (h : OnGrid r) (hfar : 2 ^ 53 ≤ |r|) : ∃ n : ℤ, r = 2 * n := by
  obtain ⟨n, k, hn, hk, rfl⟩ := h
  have hn' : |(n : ℚ)| ≤ 2 ^ 53 := by exact_mod_cast hn
  rcases le_or_gt k 0 with hfraction | hwhole
  · -- Then it is the bound itself, or its negative.
    have hpower : (2 : ℚ) ^ k ≤ 1 := zpow_le_one_of_nonpos₀ one_le_two hfraction
    have hsize : |(n * 2 ^ k : ℚ)| ≤ 2 ^ 53 := by
      rw [abs_mul, abs_of_pos (by positivity : (0 : ℚ) < 2 ^ k)]
      calc |(n : ℚ)| * 2 ^ k ≤ 2 ^ 53 * 1 := by gcongr
        _ = 2 ^ 53 := mul_one _
    rcases eq_or_eq_neg_of_abs_eq (le_antisymm hsize hfar) with hbound | hbound
    · exact ⟨2 ^ 52, by rw [hbound]; norm_num⟩
    · exact ⟨-2 ^ 52, by rw [hbound]; norm_num⟩
  · obtain ⟨j, rfl⟩ : ∃ j : ℕ, k = j + 1 := ⟨(k - 1).toNat, by omega⟩
    refine ⟨n * 2 ^ j, ?_⟩
    rw [zpow_add_one₀ two_ne_zero, zpow_natCast]
    push_cast
    ring

/-- An odd number of twos fits into the significand. -/
theorem abs_le_of_odd {n : ℤ} (h : OnGrid (2 * n)) (hodd : Odd n) : |n| ≤ 2 ^ 53 := by
  obtain ⟨m, k, hm, hk, hn⟩ := h
  rcases le_or_gt k 1 with hsmall | hlarge
  · have hm' : |(m : ℚ)| ≤ 2 ^ 53 := by exact_mod_cast hm
    have hpower : (2 : ℚ) ^ k ≤ 2 ^ (1 : ℤ) := zpow_le_zpow_right₀ one_le_two hsmall
    have hsize : 2 * |(n : ℚ)| ≤ 2 ^ 53 * 2 := by
      calc 2 * |(n : ℚ)| = |2 * (n : ℚ)| := by rw [abs_mul, abs_two]
        _ = |(m : ℚ)| * 2 ^ k := by
            rw [hn, abs_mul, abs_of_pos (by positivity : (0 : ℚ) < 2 ^ k)]
        _ ≤ 2 ^ 53 * 2 ^ (1 : ℤ) := by gcongr
        _ = 2 ^ 53 * 2 := by rw [zpow_one]
    have hle : |(n : ℚ)| ≤ 2 ^ 53 := by linarith
    exact_mod_cast hle
  · obtain ⟨j, rfl⟩ : ∃ j : ℕ, k = j + 2 := ⟨(k - 2).toNat, by omega⟩
    have hcast : (n : ℚ) = ((m * 2 ^ j * 2 : ℤ) : ℚ) := by
      rw [zpow_add₀ two_ne_zero, zpow_natCast] at hn
      push_cast
      linear_combination hn / 2
    have heven : n = m * 2 ^ j * 2 := by exact_mod_cast hcast
    rw [heven] at hodd
    exact absurd (even_two.mul_left _) (Int.not_even_iff_odd.mpr hodd)

theorem onGrid_next_of_odd {n : ℤ} (h : OnGrid (2 * n)) (hodd : Odd n) (hneg : n < 0) :
    OnGrid (2 * (n + 1 : ℤ)) := by
  have hle := abs_le.mp (abs_le_of_odd h hodd)
  exact ⟨n + 1, 1, abs_le.mpr ⟨by omega, by omega⟩, by decide, by rw [zpow_one, mul_comm]⟩

/-- One more than a number below `-2 ^ 53` is rounded to a multiple of 4: it is halfway to the next
number of the format, or still nearer to the one that it came from. -/
theorem RoundsToEven.eq_of_far {n : ℤ} {y : ℚ} (hgrid : OnGrid (2 * n))
    (hfar : 2 * n < -(2 ^ 53 : ℚ)) (h : RoundsToEven (1 + 2 * n) y) (hy : OnGrid y) :
    y = 2 * (if Even n then n else n + 1 : ℤ) := by
  have hn : n ≤ -2 ^ 52 - 1 := by
    have hlt : 2 * n < -(2 ^ 53 : ℤ) := by exact_mod_cast hfar
    omega
  have hn' : (n : ℚ) ≤ -2 ^ 52 - 1 := by exact_mod_cast hn
  have hdown : |(2 * n : ℚ) - (1 + 2 * n)| = 1 := by
    rw [sub_add_cancel_right, abs_neg, abs_one]
  have hup : |(2 * (n + 1 : ℤ) : ℚ) - (1 + 2 * n)| = 1 := by
    push_cast
    rw [(by ring : (2 * (n + 1) - (1 + 2 * n) : ℚ) = 1), abs_one]
  -- The rounded number is even, too, and not further away than the number that was raised.
  obtain ⟨m, rfl⟩ : ∃ m : ℤ, y = 2 * m := by
    have hgrid' : OnGrid (-(2 ^ 53)) := by
      have hcast : ((-(2 ^ 53) : ℤ) : ℚ) = -(2 ^ 53) := by norm_num
      exact hcast ▸ onGrid_intCast (by decide)
    have hbound := h.nearest.rounds.above _ hgrid' (by linarith)
    refine hy.even_of_far ?_
    rw [abs_of_nonpos (by linarith)]
    linarith
  have hnear := abs_le.mp ((h.nearest _ hgrid).trans_eq hdown)
  have hm : m = n ∨ m = n + 1 := by
    have hlow : n ≤ m := by exact_mod_cast (by linarith : (n : ℚ) ≤ m)
    have hhigh : m ≤ n + 1 := by exact_mod_cast (by linarith : (m : ℚ) ≤ n + 1)
    omega
  -- If the one beside it is a number of the format, it is as near, and the even one is taken.
  rcases hm with rfl | rfl
  · rw [if_pos]
    by_contra hodd
    rw [Int.not_even_iff_odd] at hodd
    obtain ⟨c, hc, hmultiple⟩ := h.even _ (onGrid_next_of_odd hgrid hodd (by omega))
      (by push_cast; linarith) (hup.trans hdown.symm)
    have hsame : m = c := by
      push_cast at hmultiple
      exact_mod_cast (by linarith : (m : ℚ) = c)
    exact Int.not_even_iff_odd.mpr hodd (hsame ▸ hc)
  · rw [if_neg]
    intro heven
    obtain ⟨c, hc, hmultiple⟩ := h.even _ hgrid (by push_cast; linarith) (hdown.trans hup.symm)
    have hsame : n + 1 = -c := by
      push_cast at hmultiple
      have hcast : (n + 1 : ℚ) = -c := by linarith
      exact_mod_cast hcast
    exact Int.not_even_iff_odd.mpr heven.add_one (hsame ▸ hc.neg)

end Binary64

open Binary64

namespace Extend

variable {t : Float}

/-! ## What is left of a ratio -/

theorem wrap_of_over_tolerance (ht : t.isFinite = true) (h : toRat tolerance < toRat t) :
    wrap t = t - Scalar.trunc t :=
  if_pos ((lt_iff tolerance_eq.1 ht).mpr h)

theorem wrap_of_tolerable (ht : t.isFinite = true) (hlow : 0 ≤ toRat t)
    (hhigh : toRat t ≤ toRat tolerance) : wrap t = t := by
  have hover : ¬ t > tolerance := (not_lt_iff tolerance_eq.1 ht).mpr hhigh
  have hneg : ¬ t < 0.0 := (not_lt_zero_iff ht).mpr hlow
  rw [wrap, if_neg hover, if_neg hneg]

theorem wrap_of_negative (ht : t.isFinite = true) (h : toRat t < 0) :
    wrap t = 1.0 + t - Scalar.trunc t := by
  have hover : ¬ t > tolerance := by
    rw [gt_iff_lt, not_lt_iff tolerance_eq.1 ht]
    linarith [tolerance_eq.2.1]
  rw [wrap, if_neg hover, if_pos ((lt_zero_iff ht).mpr h)]

section Wrap

variable (ht : t.isFinite = true)

include ht

/-- The fractional part of a ratio over the tolerance is exact. -/
theorem toRat_wrap_of_over (hover : toRat tolerance < toRat t) :
    (wrap t).isFinite = true ∧ toRat (wrap t) = Int.fract (toRat t) := by
  rw [wrap_of_over_tolerance ht hover]
  have h : 0 ≤ toRat t := by linarith [tolerance_eq.2.1]
  obtain ⟨hfinite, htrunc⟩ := toRat_trunc_of_nonneg ht h
  have hpart : toRat t - toRat (Scalar.trunc t) = toRat t + (-⌊toRat t⌋ : ℤ) := by
    rw [htrunc, Int.cast_neg, sub_eq_add_neg]
  have hfract : toRat t + (-⌊toRat t⌋ : ℤ) = Int.fract (toRat t) := by
    rw [Int.cast_neg, ← sub_eq_add_neg, Int.self_sub_floor]
  have hlow := Int.fract_nonneg (toRat t)
  have hhigh := (Int.fract_lt_one (toRat t)).le
  have hless : |Int.fract (toRat t)| ≤ |toRat t| := by
    have hfloor : (0 : ℚ) ≤ ⌊toRat t⌋ := by exact_mod_cast Int.floor_nonneg.mpr h
    rw [abs_of_nonneg hlow, abs_of_nonneg h, ← Int.self_sub_floor]
    linarith
  have hsize : |Int.fract (toRat t)| ≤ 1 := by rwa [abs_of_nonneg hlow]
  have hexact := toRat_sub_of_onGrid ht hfinite
  rw [hpart, hfract] at hexact
  refine hexact (hsize.trans one_le_largest) ?_
  rw [← hfract] at hless hsize ⊢
  exact (onGrid_toRat t ht).add_intCast _ hless (hsize.trans (by norm_num))

theorem isRounded_raise (h : toRat t < 0) : IsRounded (1 + toRat t) (1.0 + t) := by
  have hround := isRounded_add_of_le one_eq.1 ht
  rw [one_eq.2] at hround
  have hlargest := abs_le.mp (abs_toRat_le_largest ht)
  have hone := one_le_largest
  exact hround (abs_le.mpr ⟨by linarith, by linarith⟩)

/-- A whole cycle or more before the start, neither of the two steps needs to be rounded. -/
theorem toRat_raise_sub_trunc (h : toRat t ≤ -1) (hnear : -(2 ^ 53) ≤ toRat t) :
    (1.0 + t - Scalar.trunc t).isFinite = true ∧
      toRat (1.0 + t - Scalar.trunc t) = 1 + toRat t - ⌈toRat t⌉ := by
  have hneg : toRat t < 0 := by linarith
  have hgrid := onGrid_toRat t ht
  have hlow := Int.le_ceil (toRat t)
  have hhigh := Int.ceil_lt_add_one (toRat t)
  have hraise := isRounded_raise ht hneg
  obtain ⟨hfinite, htrunc⟩ := toRat_trunc_of_neg ht hneg
  have hraised : toRat (1.0 + t) = 1 + toRat t := by
    have hplus : 1 + toRat t = toRat t + (1 : ℤ) := by rw [Int.cast_one, add_comm]
    have hless : |1 + toRat t| ≤ |toRat t| := by
      rw [abs_of_nonpos (by linarith), abs_of_neg hneg]
      linarith
    have hsize : |1 + toRat t| ≤ 2 ^ 53 := abs_le.mpr ⟨by linarith, by linarith⟩
    refine hraise.rounds.eq_of_onGrid ?_
    rw [hplus] at hless hsize ⊢
    exact hgrid.add_intCast 1 hless hsize
  have hplus : 1 + toRat t - ⌈toRat t⌉ = toRat t + (1 - ⌈toRat t⌉ : ℤ) := by
    push_cast
    ring
  have hsize : |1 + toRat t - ⌈toRat t⌉| ≤ 1 := abs_le.mpr ⟨by linarith, by linarith⟩
  have hless : |1 + toRat t - ⌈toRat t⌉| ≤ |toRat t| := by
    rw [abs_of_neg hneg]
    linarith
  have hexact := toRat_sub_of_onGrid hraise.finite hfinite
  rw [htrunc, hraised] at hexact
  refine hexact (hsize.trans one_le_largest) ?_
  rw [hplus] at hsize hless ⊢
  exact hgrid.add_intCast _ hless (hsize.trans (by norm_num))

/-- A negative ratio is rounded once, as long as the 1 that is added is not lost in it. -/
theorem isRounded_wrap_of_negative (h : toRat t < 0) (hnear : -(2 ^ 53) ≤ toRat t) :
    IsRounded (1 + toRat t - ⌈toRat t⌉) (wrap t) := by
  rw [wrap_of_negative ht h]
  rcases lt_or_ge (-1) (toRat t) with hinside | houtside
  · -- It is rounded when 1 is added, and nothing is subtracted.
    have hceil : ⌈toRat t⌉ = 0 :=
      Int.ceil_eq_iff.mpr ⟨by simpa using hinside, by simpa using h.le⟩
    have hraise := isRounded_raise ht h
    obtain ⟨hfinite, htrunc⟩ := toRat_trunc_of_neg ht h
    have hexact := toRat_sub_of_onGrid hraise.finite hfinite
    rw [htrunc, hceil, Int.cast_zero, sub_zero] at hexact
    rw [hceil, Int.cast_zero, sub_zero]
    obtain ⟨hfinite', hvalue⟩ :=
      hexact (abs_toRat_le_largest hraise.finite) (onGrid_toRat _ hraise.finite)
    exact ⟨hfinite', hvalue ▸ hraise.rounds⟩
  · obtain ⟨hfinite, hvalue⟩ := toRat_raise_sub_trunc ht houtside hnear
    exact ⟨hfinite, by rw [hvalue]; exact (Nearest.refl _).rounds⟩

/-- It is rounded to neither side out of the cycle: it is not zero before it is rounded, and 1 is a
number of the format. -/
theorem wrap_mem_of_negative (hneg : toRat t < 0) (hnear : -(2 ^ 53) ≤ toRat t) :
    0 < toRat (wrap t) ∧ toRat (wrap t) ≤ 1 := by
  have h := isRounded_wrap_of_negative ht hneg hnear
  have hlow := Int.ceil_lt_add_one (toRat t)
  have hhigh := Int.le_ceil (toRat t)
  obtain ⟨n, hn⟩ := exists_multiple ht
  obtain ⟨m, hm⟩ := exists_multiple one_eq.1
  rw [one_eq.2] at hm
  have hcount : 1 + toRat t - ⌈toRat t⌉ =
      (m + n - ⌈toRat t⌉ * m : ℤ) * 2 ^ (-1074 : ℤ) := by
    rw [Int.cast_sub, Int.cast_add, Int.cast_mul]
    linear_combination hn + (1 - ⌈toRat t⌉) * hm
  have hne := h.rounds.ne_zero_of_multiple hcount (by linarith)
  have hnonneg : 0 ≤ toRat (wrap t) := by
    simpa using h.rounds.below _ (onGrid_intCast (n := 0) (by decide)) (by push_cast; linarith)
  have hle : toRat (wrap t) ≤ 1 := by
    simpa using h.rounds.above _ (onGrid_intCast (n := 1) (by decide)) (by push_cast; linarith)
  exact ⟨lt_of_le_of_ne hnonneg hne.symm, hle⟩

/-- Further out nothing is left of it but the rounding. -/
theorem toRat_wrap_of_far (hfar : toRat t < -(2 ^ 53)) :
    ∃ n : ℤ, toRat t = 2 * n ∧ (wrap t).isFinite = true ∧
      toRat (wrap t) = if Even n then 0 else 2 := by
  have h : toRat t < 0 := hfar.trans (by norm_num)
  rw [wrap_of_negative ht h]
  have hgrid := onGrid_toRat t ht
  obtain ⟨n, hn⟩ := hgrid.even_of_far (by rw [abs_of_neg h]; linarith)
  have hraise := isRounded_raise ht h
  have hsum := roundsToEven_float_add one_eq.1 ht hraise.finite
  rw [one_eq.2, hn] at hsum
  have hraised := hsum.eq_of_far (hn ▸ hgrid) (hn ▸ hfar) (onGrid_toRat _ hraise.finite)
  obtain ⟨hfinite, htrunc⟩ := toRat_trunc_of_neg ht h
  have hwhole : ((⌈toRat t⌉ : ℤ) : ℚ) = 2 * n := by
    have hcast : (2 * n : ℚ) = (2 * n : ℤ) := by push_cast; rfl
    rw [hn, hcast, Int.ceil_intCast]
  have hleft : toRat (1.0 + t) - toRat (Scalar.trunc t) = (if Even n then 0 else 2 : ℤ) := by
    rw [htrunc, hwhole, hraised]
    split
    · push_cast
      ring
    · push_cast
      ring
  have hsmall : |(if Even n then 0 else 2 : ℤ)| ≤ 2 ^ 53 := by split <;> decide
  have hexact := toRat_sub_of_onGrid hraise.finite hfinite
  rw [hleft] at hexact
  obtain ⟨hfinite', hvalue⟩ :=
    hexact ((intCast_abs_le hsmall).trans two_zpow_le_largest) (onGrid_intCast hsmall)
  exact ⟨n, hn, hfinite', hvalue.trans (by push_cast; rfl)⟩

theorem isFinite_wrap : (wrap t).isFinite = true := by
  rcases lt_or_ge (toRat t) (-(2 ^ 53)) with hfar | hnear
  · obtain ⟨n, -, hfinite, -⟩ := toRat_wrap_of_far ht hfar
    exact hfinite
  rcases lt_or_ge (toRat t) 0 with hneg | hnonneg
  · exact (isRounded_wrap_of_negative ht hneg hnear).finite
  rcases lt_or_ge (toRat tolerance) (toRat t) with hover | htolerable
  · exact (toRat_wrap_of_over ht hover).1
  · rwa [wrap_of_tolerable ht hnonneg htolerable]

theorem wrap_mem_of_near (hnear : -(2 ^ 53) ≤ toRat t) :
    0 ≤ toRat (wrap t) ∧ toRat (wrap t) ≤ toRat tolerance := by
  have hone := tolerance_eq.2.1
  rcases lt_or_ge (toRat t) 0 with hneg | hnonneg
  · obtain ⟨hpos, hle⟩ := wrap_mem_of_negative ht hneg hnear
    exact ⟨hpos.le, hle.trans hone⟩
  rcases lt_or_ge (toRat tolerance) (toRat t) with hover | htolerable
  · rw [(toRat_wrap_of_over ht hover).2]
    exact ⟨Int.fract_nonneg _, (Int.fract_lt_one _).le.trans hone⟩
  · rw [wrap_of_tolerable ht hnonneg htolerable]
    exact ⟨hnonneg, htolerable⟩

end Wrap

/-! ## There and back -/

/-- A ratio and its negative are folded to the same one. -/
theorem fold_neg_float (ht : t.isFinite = true) : fold (-t) = fold t := by
  obtain ⟨hneg, hvalue⟩ := toRat_neg ht
  rcases lt_trichotomy (toRat t) 0 with h | h | h
  · have hbelow : t < 0.0 := (lt_zero_iff ht).mpr h
    have habove : ¬ -t < 0.0 := (not_lt_zero_iff hneg).mpr (by rw [hvalue]; linarith)
    simp only [fold, if_pos hbelow, if_neg habove]
  · rcases eq_zero_or_eq_neg_zero ht h with rfl | rfl
    · decide +kernel
    · decide +kernel
  · have hbelow : -t < 0.0 := (lt_zero_iff hneg).mpr (by rw [hvalue]; linarith)
    have habove : ¬ t < 0.0 := (not_lt_zero_iff ht).mpr h.le
    simp only [fold, if_pos hbelow, if_neg habove, float_neg_neg ht]

/-! ## Ratios of any size -/

/-- **Repeated ratios stay in one cycle from `2 ^ 53` cycles before the start on, and reversed ones
always do.** A repeated ratio over the tolerance is its exact fractional part, which is less than 1,
and one from 0 to the tolerance is left alone. A negative one down to `-2 ^ 53` becomes the exact
representative above 0 and up to 1, rounded once. Below that every ratio is twice a whole number. If
this is even, then nothing is left of the ratio, and if it is odd, 2 is left. A reversed ratio is
from 0 to 1, whatever its size, and it is that of the negative ratio as well. -/
theorem normalize_of_finite (ht : t.isFinite = true) :
    (∃ r, repeating.normalize t = .along r ∧ r.isFinite = true ∧
      (-(2 ^ 53) ≤ toRat t → 0.0 ≤ r ∧ r ≤ tolerance) ∧
      (tolerance < t → 0.0 ≤ r ∧ r < 1.0 ∧ toRat r = Int.fract (toRat t)) ∧
      (0.0 ≤ t → t ≤ tolerance → r = t) ∧
      (t < 0.0 → -(2 ^ 53) ≤ toRat t →
        0.0 < r ∧ r ≤ 1.0 ∧ IsRounded (1 + toRat t - ⌈toRat t⌉) r) ∧
      (toRat t < -(2 ^ 53) → ∃ n : ℤ, toRat t = 2 * n ∧ toRat r = if Even n then 0 else 2)) ∧
    ∃ r, reverse.normalize t = .along r ∧ reverse.normalize (-t) = .along r ∧
      0.0 ≤ r ∧ r ≤ 1.0 := by
  have htolerance := tolerance_eq.1
  have hfinite := isFinite_wrap ht
  constructor
  · refine ⟨wrap t, rfl, hfinite, ?_⟩
    rw [lt_iff htolerance ht, lt_zero_iff ht, le_iff zero_eq.1 ht, le_iff ht htolerance,
      le_iff zero_eq.1 hfinite, le_iff hfinite htolerance, lt_one_iff hfinite,
      lt_iff zero_eq.1 hfinite, le_iff hfinite one_eq.1, zero_eq.2, one_eq.2]
    refine ⟨wrap_mem_of_near ht, fun hover => ?_, wrap_of_tolerable ht, fun hneg hnear => ?_,
      fun hfar => ?_⟩
    · rw [(toRat_wrap_of_over ht hover).2]
      exact ⟨Int.fract_nonneg _, Int.fract_lt_one _, rfl⟩
    · obtain ⟨hpos, hle⟩ := wrap_mem_of_negative ht hneg hnear
      exact ⟨hpos, hle, isRounded_wrap_of_negative ht hneg hnear⟩
    · obtain ⟨n, hn, -, hvalue⟩ := toRat_wrap_of_far ht hfar
      exact ⟨n, hn, hvalue⟩
  · have hfold := between_fold ht
    refine ⟨fold t, rfl, congrArg Phase.along (fold_neg_float ht), ?_, ?_⟩
    · rw [le_iff zero_eq.1 hfold.finite, zero_eq.2]
      exact hfold.nonneg
    · rw [le_iff hfold.finite one_eq.1, one_eq.2]
      exact hfold.le_one

namespace LongBefore

/-! Tweens that are asked for a ratio long before they begin. -/

/-- At `2 ^ 53` cycles before the start there is a whole cycle left. -/
theorem stays_in_cycle :
    (∃ r : Float, repeating.normalize (-9007199254740992.0) = .along r ∧ 0.0 < r ∧ r ≤ 1.0) ∧
      ∃ r : Float, reverse.normalize (-9007199254740992.0) = .along r ∧ 0.0 ≤ r ∧ r ≤ 1.0 := by
  obtain ⟨hfinite, hneg, hnear⟩ : (-9007199254740992.0 : Float).isFinite = true ∧
      (-9007199254740992.0 : Float) < 0.0 ∧ -(2 ^ 53) ≤ toRat (-9007199254740992.0) := by
    decide +kernel
  obtain ⟨⟨r, hr, -, -, -, -, hwithin, -⟩, r', hr', -, hmem⟩ := normalize_of_finite hfinite
  obtain ⟨hpos, hle, -⟩ := hwithin hneg hnear
  exact ⟨⟨r, hr, hpos, hle⟩, r', hr', hmem⟩

/-- Two cycles further out, 2 is left, and nothing is at four. -/
theorem leaves_cycle :
    (repeating.normalize (-9007199254740994.0 : Float) = .along 2.0 ∧
      ¬ (2.0 : Float) ≤ tolerance) ∧
    repeating.normalize (-9007199254740996.0 : Float) = .along 0.0 ∧ ¬ (0.0 : Float) < 0.0 := by
  decide +kernel

end LongBefore

end Extend

end Inbetween
