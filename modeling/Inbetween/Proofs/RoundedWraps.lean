import Inbetween.Proofs.Landings
import Inbetween.Proofs.Quotients
import Inbetween.Proofs.Wraps

/-!
# Wrapped values up to rounding

A wrapped value is never below its range. It is not above it either, unless a remainder just below
zero is lost when the width of the range is added to it. Then it is the sum of the lower bound and
the rounded width, which differs from the upper bound by no more than twice the rounding of the
width. Where the bounds and the value are counted by one power of two, nothing is rounded.
-/

namespace Inbetween

open Act Binary64 Evaluate

/-- Counts of one power of two compare as their products with it. -/
theorem count_le_iff {m n k : ℤ} : (m * 2 ^ k : ℚ) ≤ n * 2 ^ k ↔ m ≤ n := by
  rw [mul_le_mul_iff_left₀ (by positivity), Int.cast_le]

theorem count_lt_iff {m n k : ℤ} : (m * 2 ^ k : ℚ) < n * 2 ^ k ↔ m < n := by
  rw [mul_lt_mul_iff_left₀ (by positivity), Int.cast_lt]

/-! ## Remainders -/

section Remainders

variable {x y : Float} (hx : x.isFinite = true) (hy : y.isFinite = true) (hpos : 0 < toRat y)

include hx hy hpos

/-- The remainder is exact. It has the sign of the dividend, but it is smaller than the divisor. -/
theorem remainder_spec :
    (Scalar.remainder x y).isFinite = true ∧ |toRat (Scalar.remainder x y)| < toRat y ∧
      (0 ≤ toRat x → 0 ≤ toRat (Scalar.remainder x y)) ∧
      ∃ n : ℤ, toRat x = toRat (Scalar.remainder x y) + n * toRat y := by
  obtain ⟨hfinite, hvalue⟩ : (Scalar.remainder x y).isFinite = true ∧
      toRat (Scalar.remainder x y) =
        (toRat x / toRat y - Scalar.towardZero (toRat x / toRat y)) * toRat y := by
    have h := toRat_remainder hx hy hpos.ne'
    refine ⟨h.1, h.2.trans ?_⟩
    field_simp
  refine ⟨hfinite, ?_, fun hnonneg => ?_, ?_⟩
  · rw [hvalue, abs_mul, abs_of_pos hpos]
    exact mul_lt_of_lt_one_left hpos (Scalar.abs_sub_towardZero_lt _)
  · have hquotient : 0 ≤ toRat x / toRat y := div_nonneg hnonneg hpos.le
    rw [hvalue, Scalar.towardZero, if_neg (not_lt.mpr hquotient), Int.self_sub_floor]
    exact mul_nonneg (Int.fract_nonneg _) hpos.le
  · obtain ⟨n, hn⟩ := Scalar.exists_towardZero_eq (toRat x / toRat y)
    refine ⟨n, ?_⟩
    rw [hvalue, hn]
    field_simp
    ring

/-- A remainder that is negative is raised by the divisor. -/
theorem isRounded_euclidean (hneg : toRat (Scalar.remainder x y) < 0) :
    IsRounded (toRat (Scalar.remainder x y) + toRat y) (Scalar.euclidean x y) := by
  obtain ⟨hfinite, hsize, -⟩ := remainder_spec hx hy hpos
  obtain ⟨habs, habs'⟩ : (Scalar.abs y).isFinite = true ∧ toRat (Scalar.abs y) = toRat y := by
    rw [← abs_of_pos hpos]
    exact toRat_abs hy
  have hbelow := (abs_lt.mp hsize).1
  have hlargest := (le_abs_self _).trans (abs_toRat_le_largest hy)
  have hraise := isRounded_add_of_le hfinite habs
  rw [habs'] at hraise
  rw [Scalar.euclidean, if_pos ((lt_zero_iff hfinite).mpr hneg)]
  exact hraise (abs_le.mpr ⟨by linarith, by linarith⟩)

theorem euclidean_of_nonneg (hnonneg : 0 ≤ toRat (Scalar.remainder x y)) :
    Scalar.euclidean x y = Scalar.remainder x y :=
  if_neg ((not_lt_zero_iff (remainder_spec hx hy hpos).1).mpr hnonneg)

/-- It reaches the divisor only if it was negative. -/
theorem euclidean_spec :
    (Scalar.euclidean x y).isFinite = true ∧ 0 ≤ toRat (Scalar.euclidean x y) ∧
      toRat (Scalar.euclidean x y) ≤ toRat y ∧
      (0 ≤ toRat x → toRat (Scalar.euclidean x y) < toRat y) := by
  obtain ⟨hfinite, hsize, hsign, -⟩ := remainder_spec hx hy hpos
  obtain ⟨hlow, hhigh⟩ := abs_lt.mp hsize
  rcases lt_or_ge (toRat (Scalar.remainder x y)) 0 with hneg | hnonneg
  · have hraise := isRounded_euclidean hx hy hpos hneg
    refine ⟨hraise.finite, ?_, ?_, fun hx' => absurd (hsign hx') (not_le.mpr hneg)⟩
    · exact hraise.rounds.below 0 onGrid_zero (by linarith)
    · exact hraise.rounds.above _ (onGrid_toRat y hy) (by linarith)
  · rw [euclidean_of_nonneg hx hy hpos hnonneg]
    exact ⟨hfinite, hnonneg, hhigh.le, fun _ => hhigh⟩

/-- Where both are counted by one power of two, the raised remainder is exact, too. -/
theorem euclidean_of_multiples {p q k : ℤ} (hk : -1074 ≤ k) (hp : toRat x = p * 2 ^ k)
    (hq : toRat y = q * 2 ^ k) (hsmall : |q| ≤ 2 ^ 53) :
    toRat (Scalar.euclidean x y) < toRat y ∧
      ∃ c n : ℤ, toRat (Scalar.euclidean x y) = c * 2 ^ k ∧
        toRat x = toRat (Scalar.euclidean x y) + n * toRat y := by
  obtain ⟨hfinite, hsize, -, n, hn⟩ := remainder_spec hx hy hpos
  obtain ⟨hlow, hhigh⟩ := abs_lt.mp hsize
  have hcount : toRat (Scalar.remainder x y) = (p - n * q : ℤ) * 2 ^ k := by
    push_cast
    linear_combination hp - hn - n * hq
  have hunit : (0 : ℚ) < 2 ^ k := by positivity
  rcases lt_or_ge (toRat (Scalar.remainder x y)) 0 with hneg | hnonneg
  · have hsum : toRat (Scalar.remainder x y) + toRat y = (p - n * q + q : ℤ) * 2 ^ k := by
      rw [hcount, hq]
      push_cast
      ring
    have hcount' : |p - n * q + q| ≤ 2 ^ 53 := by
      have hnonneg : ((0 : ℤ) * 2 ^ k : ℚ) ≤ (p - n * q + q : ℤ) * 2 ^ k := by
        rw [← hsum, Int.cast_zero, zero_mul]
        linarith
      have hle : ((p - n * q + q : ℤ) * 2 ^ k : ℚ) ≤ q * 2 ^ k := by
        rw [← hsum, ← hq]
        linarith
      rw [abs_of_nonneg (count_le_iff.mp hnonneg)]
      exact (count_le_iff.mp hle).trans ((le_abs_self q).trans hsmall)
    have hexact : toRat (Scalar.euclidean x y) = toRat (Scalar.remainder x y) + toRat y :=
      (isRounded_euclidean hx hy hpos hneg).rounds.eq_of_onGrid ⟨_, k, hcount', hk, hsum⟩
    refine ⟨by linarith, _, n - 1, hexact.trans hsum, ?_⟩
    push_cast
    linear_combination hn - hexact
  · rw [euclidean_of_nonneg hx hy hpos hnonneg]
    exact ⟨hhigh, _, n, hcount, hn⟩

end Remainders

/-! ## Into the range -/

section Ranges

variable {low high v : Float}

theorem wrapBetween_of_lt (hlow : low.isFinite = true) (hhigh : high.isFinite = true)
    (hlt : toRat low < toRat high) :
    wrapBetween low high v = low + Scalar.euclidean (v - low) (high - low) ∧
      wrapBetween high low v = low + Scalar.euclidean (v - low) (high - low) := by
  have hle : low ≤ high := (le_iff hlow hhigh).mpr hlt.le
  have hnot : ¬ high ≤ low := mt (le_iff hhigh hlow).mp (not_le.mpr hlt)
  exact ⟨by simp only [wrapBetween, if_pos hle], by simp only [wrapBetween, if_neg hnot]⟩

variable (hlow : low.isFinite = true) (hhigh : high.isFinite = true)
  (hlt : toRat low < toRat high) (hwidth : (high - low).isFinite = true)

include hlow hhigh hlt hwidth

theorem width_pos : 0 < toRat (high - low) := by
  refine lt_of_le_of_ne (toRat_sub_nonneg hhigh hlow hwidth hlt.le) fun h => hlt.ne' ?_
  exact (toRat_sub_eq_zero_iff hhigh hlow).mp ⟨hwidth, h.symm⟩

omit hlt in
/-- What is less than the rounded width does not lead past the upper bound. -/
theorem add_le_high {e : Float} (he : e.isFinite = true) (hnonneg : 0 ≤ toRat e)
    (hless : toRat e < toRat (high - low)) :
    (low + e).isFinite = true ∧ toRat (low + e) ≤ toRat high := by
  -- It is a number of the format, so the exact width is not less, either.
  have hle : toRat e ≤ toRat high - toRat low := by
    by_contra hmore
    have hrounds := (nearest_float_sub hhigh hlow hwidth).rounds
    exact absurd (hrounds.above _ (onGrid_toRat e he) (not_le.mp hmore).le) (not_le.mpr hless)
  have hfloor := abs_le.mp (abs_toRat_le_largest hlow)
  have hceiling := abs_le.mp (abs_toRat_le_largest hhigh)
  have hround := isRounded_add_of_le hlow he (abs_le.mpr ⟨by linarith, by linarith⟩)
  exact ⟨hround.finite, hround.rounds.above _ (onGrid_toRat high hhigh) (by linarith)⟩

/-- The whole of it leads past the upper bound by no more than twice what it was rounded by. -/
theorem add_sub_high_le {e : Float} (he : e.isFinite = true)
    (hle : toRat e ≤ toRat (high - low)) (hsum : (low + e).isFinite = true) :
    toRat (low + e) ≤ toRat high + 2 ^ (-52 : ℤ) * (toRat high - toRat low) := by
  have hspan : 0 < toRat high - toRat low := sub_pos.mpr hlt
  have hnearest := nearest_float_add hlow he hsum
  have hrounded := (abs_le.mp (abs_toRat_sub_sub_le hhigh hlow hwidth)).2
  rw [abs_of_pos hspan] at hrounded
  have htwice : 2 * (2 ^ (-53 : ℤ) * (toRat high - toRat low)) =
      2 ^ (-52 : ℤ) * (toRat high - toRat low) := by
    rw [← mul_assoc, ← zpow_one_add₀ two_ne_zero]
    rfl
  rcases le_or_gt (toRat low + toRat e) (toRat high) with hinside | hpast
  · have hhigh' := hnearest.rounds.above _ (onGrid_toRat high hhigh) hinside
    have hslack : 0 ≤ 2 ^ (-52 : ℤ) * (toRat high - toRat low) := by positivity
    linarith
  · have hnear := (le_abs_self _).trans
      (hnearest.abs_sub_le_two_mul (onGrid_toRat high hhigh))
    rw [abs_of_pos (sub_pos.mpr hpast)] at hnear
    linarith

variable (hv : v.isFinite = true) (hdistance : (v - low).isFinite = true)

include hv hdistance

/-- Where everything is counted by one power of two, no step is rounded. -/
theorem add_euclidean_of_multiples {n n' m k : ℤ} (hk : -1074 ≤ k) (hn : toRat low = n * 2 ^ k)
    (hn' : toRat high = n' * 2 ^ k) (hm : toRat v = m * 2 ^ k) (hsize : |n| ≤ 2 ^ 52)
    (hsize' : |n'| ≤ 2 ^ 52) (hsize'' : |m| ≤ 2 ^ 52) :
    (low + Scalar.euclidean (v - low) (high - low)).isFinite = true ∧
      toRat (low + Scalar.euclidean (v - low) (high - low)) < toRat high ∧
      ∃ c : ℤ, toRat v = toRat (low + Scalar.euclidean (v - low) (high - low)) +
        c * (toRat high - toRat low) := by
  rw [abs_le] at hsize hsize' hsize''
  have hwide : |n' - n| ≤ 2 ^ 53 := abs_le.mpr ⟨by omega, by omega⟩
  have hfar : |m - n| ≤ 2 ^ 53 := abs_le.mpr ⟨by omega, by omega⟩
  have hspan := toRat_sub_of_multiples hlow hhigh hwidth hk hn hn' hwide
  have hpart := toRat_sub_of_multiples hlow hv hdistance hk hn hm hfar
  have hpos := width_pos hlow hhigh hlt hwidth
  have hspan' : toRat (high - low) = (n' - n : ℤ) * 2 ^ k := by
    rw [hspan, hn, hn', Int.cast_sub, sub_mul]
  have hpart' : toRat (v - low) = (m - n : ℤ) * 2 ^ k := by
    rw [hpart, hn, hm, Int.cast_sub, sub_mul]
  obtain ⟨hless, c, z, hc, hz⟩ :=
    euclidean_of_multiples hdistance hwidth hpos hk hpart' hspan' hwide
  obtain ⟨hfinite, hnonneg, -⟩ := euclidean_spec hdistance hwidth hpos
  obtain ⟨hsum, hbound⟩ := add_le_high hlow hhigh hwidth hfinite hnonneg hless
  rw [hspan] at hless
  have hcount : toRat low + toRat (Scalar.euclidean (v - low) (high - low)) =
      (n + c : ℤ) * 2 ^ k := by
    rw [hn, hc]
    push_cast
    ring
  have hgrid : |n + c| ≤ 2 ^ 53 := by
    have habove : (n * 2 ^ k : ℚ) ≤ (n + c : ℤ) * 2 ^ k := by
      rw [← hcount, ← hn]
      linarith
    have hbelow : ((n + c : ℤ) * 2 ^ k : ℚ) < n' * 2 ^ k := by
      rw [← hcount, ← hn']
      linarith
    have habove' := count_le_iff.mp habove
    have hbelow' := count_lt_iff.mp hbelow
    exact abs_le.mpr ⟨by omega, by omega⟩
  have hexact := (nearest_float_add hlow hfinite hsum).rounds.eq_of_onGrid ⟨_, k, hgrid, hk, hcount⟩
  refine ⟨hsum, by linarith, z, ?_⟩
  linear_combination hz - hexact - hpart + z * hspan

end Ranges

/-- **Wrapped values are not below their range, and above it only by rounding.** A wrap reports the
wrapped value of what it has read, whichever bound it reads first. This is never below the lower
bound. It is not above the upper one unless the remainder is rounded up to the whole width, which
does not happen to values that are not below the range themselves. And if it is finite, then it is
above by at most one part in `2 ^ 52` of the width. Where the bounds and the value are multiples of
one power of two, and not too large ones, nothing is rounded: the wrapped value is below the upper
bound and differs from the value by whole widths. -/
theorem wraps_up_to_rounding {low high v : Float} (hlow : low.isFinite = true)
    (hhigh : high.isFinite = true) (hv : v.isFinite = true) (hlt : low < high)
    (hwidth : (high - low).isFinite = true) (hdistance : (v - low).isFinite = true) :
    (∀ {V : Vocabulary} {M : Type} (host : Host Float V M) (a : AnimationId)
      (first second source : Slot Float V) (clock : Clock Float) (w w₁ w₂ w₃ : World Float V M)
      (x y : Float), x = low ∧ y = high ∨ x = high ∧ y = low →
      host.Answers (.read first clock) w x w₁ → host.Answers (.read second clock) w₁ y w₂ →
      host.Answers (.read source clock) w₂ v w₃ → ∀ s w',
        (strategy host a clock (.wrap first second source)).Yields host w s w' ↔
          s = .value (wrapBetween low high v) ∧ w' = w₃) ∧
    low ≤ wrapBetween low high v ∧
    (Scalar.euclidean (v - low) (high - low) < high - low → wrapBetween low high v ≤ high) ∧
    (low ≤ v → wrapBetween low high v ≤ high) ∧
    ((wrapBetween low high v).isFinite = true →
      toRat (wrapBetween low high v) ≤
        toRat high + 2 ^ (-52 : ℤ) * (toRat high - toRat low)) ∧
    ∀ n n' m k : ℤ, -1074 ≤ k → toRat low = n * 2 ^ k → toRat high = n' * 2 ^ k →
      toRat v = m * 2 ^ k → |n| ≤ 2 ^ 52 → |n'| ≤ 2 ^ 52 → |m| ≤ 2 ^ 52 →
      wrapBetween low high v < high ∧
        ∃ c : ℤ, toRat v = toRat (wrapBetween low high v) + c * (toRat high - toRat low) := by
  have hlt' := (lt_iff hlow hhigh).mp hlt
  obtain ⟨hwrap, hswapped⟩ := wrapBetween_of_lt (v := v) hlow hhigh hlt'
  have hpos := width_pos hlow hhigh hlt' hwidth
  obtain ⟨hfinite, hnonneg, hle, hless⟩ := euclidean_spec hdistance hwidth hpos
  have hbelow : Scalar.euclidean (v - low) (high - low) < high - low →
      (wrapBetween low high v).isFinite = true ∧ wrapBetween low high v ≤ high := fun h => by
    rw [hwrap]
    obtain ⟨hsum, hbound⟩ :=
      add_le_high hlow hhigh hwidth hfinite hnonneg ((lt_iff hfinite hwidth).mp h)
    exact ⟨hsum, (le_iff hsum hhigh).mpr hbound⟩
  refine ⟨?_, ?_, fun h => (hbelow h).2, fun h => ?_, fun h => ?_, ?_⟩
  · intro V M host a first second source clock w w₁ w₂ w₃ x y hbounds hx hy hsource s w'
    have hvalue : wrapBetween x y v = wrapBetween low high v := by
      rcases hbounds with ⟨rfl, rfl⟩ | ⟨rfl, rfl⟩
      · rfl
      · rw [hwrap, hswapped]
    rw [← hvalue]
    exact (yields_wrap.mpr ⟨x, w₁, y, w₂, v, hx, hy, hsource, rfl⟩).yields_iff
  · rw [hwrap]
    exact float_le_add hlow hfinite hnonneg
  · -- The distance is not negative, so the remainder is not, either.
    have hnonneg' := toRat_sub_nonneg hv hlow hdistance ((le_iff hlow hv).mp h)
    exact (hbelow ((lt_iff hfinite hwidth).mpr (hless hnonneg'))).2
  · rw [hwrap] at h ⊢
    exact add_sub_high_le hlow hhigh hlt' hwidth hfinite hle h
  · intro n n' m k hk hn hn' hm hsize hsize' hsize''
    obtain ⟨hsum, hbound, hwhole⟩ := add_euclidean_of_multiples hlow hhigh hlt' hwidth hv hdistance
      hk hn hn' hm hsize hsize' hsize''
    rw [hwrap]
    exact ⟨(lt_iff hsum hhigh).mpr hbound, hwhole⟩

namespace Compass

/-! Headings that are kept within a turn. -/

/-- A turn and a half and ten degrees is wrapped to ten degrees past the way back. -/
theorem stays_within :
    ∃ w : Float, wrapBetween (-180.0) 180.0 550.0 = w ∧ -180.0 ≤ w ∧ w < 180.0 ∧
      ∃ c : ℤ, 550 = toRat w + c * 360 := by
  obtain ⟨hlow, hhigh, hv, hlt, hwidth, hdistance⟩ : (-180.0 : Float).isFinite = true ∧
      (180.0 : Float).isFinite = true ∧ (550.0 : Float).isFinite = true ∧ (-180.0 : Float) < 180.0 ∧
      ((180.0 : Float) - -180.0).isFinite = true ∧ ((550.0 : Float) - -180.0).isFinite = true := by
    decide +kernel
  obtain ⟨hn, hn', hm⟩ : toRat (-180.0) = (-180 : ℤ) * 2 ^ (0 : ℤ) ∧
      toRat 180.0 = (180 : ℤ) * 2 ^ (0 : ℤ) ∧ toRat 550.0 = (550 : ℤ) * 2 ^ (0 : ℤ) := by
    decide +kernel
  obtain ⟨-, hbelow, -, -, -, hexact⟩ := wraps_up_to_rounding hlow hhigh hv hlt hwidth hdistance
  obtain ⟨habove, c, hc⟩ := hexact _ _ _ 0 (by decide) hn hn' hm (by decide) (by decide) (by decide)
  refine ⟨_, rfl, hbelow, habove, c, ?_⟩
  rw [hn, hn', hm] at hc
  norm_num at hc
  exact hc

/-- A value just below the range can be wrapped to the upper bound, past it, or even to infinity. -/
theorem leaves_range :
    (wrapBetween 0.0 360.0 (-1e-20 : Float) = 360.0 ∧ ¬ (360.0 : Float) < 360.0) ∧
    (wrapBetween (-1.0) 1.2 (-1.0000000000000002 : Float) = 1.2000000000000002 ∧
      ¬ (1.2000000000000002 : Float) ≤ 1.2) ∧
    (wrapBetween 2.9937604643020797e292 1.7976931348623157e308 2.9937604643020793e292 :
      Float).isFinite = false := by
  decide +kernel

end Compass

end Inbetween
