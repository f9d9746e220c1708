import Inbetween.Proofs.Plans
import Inbetween.Proofs.Rationals

/-!
# Where tweens begin and end

A tween adds a part of the difference between its ends to its start. Nothing of it is added at ratio
0, so the start is reported there, if only the difference is in range. At ratio 1 all of it is added,
but it has been rounded by then. What is reported differs from the end by as much as that, whereas a
tween that is over reports the end itself.
-/

namespace Inbetween

open Act Binary64 Evaluate

variable {start finish x : Float}

/-! ## Blends at the ends -/

section Blends

variable (hstart : start.isFinite = true) (hfinish : finish.isFinite = true)
  (hx : x.isFinite = true)

include hstart hx in
theorem lerp_of_eq_zero (hspan : (finish - start).isFinite = true) (hzero : toRat x = 0) :
    (Curve.lerp start finish x).isFinite = true ∧
      toRat (Curve.lerp start finish x) = toRat start := by
  obtain ⟨hpart, hnothing⟩ := toRat_mul_of_eq_zero hspan hx (mul_eq_zero_of_right _ hzero)
  have hsum := toRat_add_of_onGrid hstart hpart
  rw [hnothing, add_zero] at hsum
  exact hsum (abs_toRat_le_largest hstart) (onGrid_toRat start hstart)

include hx in
/-- Nothing of a difference that is out of range is not zero, but no number. -/
theorem isNaN_lerp_of_eq_zero (hspan : (finish - start).isFinite = false) (hzero : toRat x = 0) :
    (Curve.lerp start finish x).isNaN = true :=
  isNaN_float_add_right start (isNaN_float_mul_of_eq_zero hspan hx hzero)

theorem isFinite_lerp_of_overflow (hspan : (finish - start).isFinite = false) (x : Float) :
    (Curve.lerp start finish x).isFinite = false :=
  isFinite_float_add_right start (isFinite_float_mul hspan x)

include hstart hfinish

/-- The difference needs no rounding if the ends are multiples of one power of two that are not too
far apart, as whole numbers of moderate size are. -/
theorem toRat_sub_of_multiples (hspan : (finish - start).isFinite = true) {n n' k : ℤ}
    (hk : -1074 ≤ k) (hstart' : toRat start = n * 2 ^ k) (hfinish' : toRat finish = n' * 2 ^ k)
    (hapart : |n' - n| ≤ 2 ^ 53) : toRat (finish - start) = toRat finish - toRat start := by
  have hgrid : OnGrid (toRat finish - toRat start) :=
    ⟨n' - n, k, hapart, hk, by rw [hstart', hfinish', Int.cast_sub, sub_mul]⟩
  exact (nearest_float_sub hfinish hstart hspan).rounds.eq_of_onGrid hgrid

include hx

/-- Where the difference needs no rounding, the whole of it leads to the end. -/
theorem lerp_of_eq_one_of_exact (hspan : (finish - start).isFinite = true) (hone : toRat x = 1)
    (hexact : toRat (finish - start) = toRat finish - toRat start) :
    (Curve.lerp start finish x).isFinite = true ∧
      toRat (Curve.lerp start finish x) = toRat finish := by
  obtain ⟨hpart, hwhole⟩ := toRat_mul_of_eq_one hspan hx hone
  have hsum := toRat_add_of_onGrid hstart hpart
  rw [hwhole, hexact, add_sub_cancel] at hsum
  exact hsum (abs_toRat_le_largest hfinish) (onGrid_toRat finish hfinish)

/-- The end itself is a number of the format. So the sum that is nearest to the start and the
rounded difference misses the end by no more than twice what the difference was rounded by. -/
theorem abs_lerp_sub_le (hspan : (finish - start).isFinite = true) (hone : toRat x = 1)
    (hsum : (Curve.lerp start finish x).isFinite = true) :
    |toRat (Curve.lerp start finish x) - toRat finish| ≤
      2 ^ (-52 : ℤ) * |toRat finish - toRat start| := by
  obtain ⟨hpart, hwhole⟩ := toRat_mul_of_eq_one hspan hx hone
  have hdifference := abs_toRat_sub_sub_le hfinish hstart hspan
  have hnear :=
    (nearest_float_add hstart hpart hsum).abs_sub_le_two_mul (onGrid_toRat finish hfinish)
  rw [hwhole] at hnear
  generalize toRat (finish - start) = d at hdifference hnear
  have hmissed : |toRat start + d - toRat finish| = |d - (toRat finish - toRat start)| := by
    congr 1
    ring
  calc |toRat (Curve.lerp start finish x) - toRat finish|
      ≤ 2 * |d - (toRat finish - toRat start)| := hmissed ▸ hnear
    _ ≤ 2 * (2 ^ (-53 : ℤ) * |toRat finish - toRat start|) := by linarith
    _ = 2 ^ (-52 : ℤ) * |toRat finish - toRat start| := by
        rw [← mul_assoc, ← zpow_one_add₀ two_ne_zero]
        rfl

/-- Nothing is out of range if the sizes of both ends are not together. -/
theorem isFinite_lerp_of_size (hsize : |toRat start| + |toRat finish| ≤ 2 ^ (1023 : ℤ))
    (hone : toRat x = 1) :
    (finish - start).isFinite = true ∧ (Curve.lerp start finish x).isFinite = true := by
  have hdistance : |toRat finish - toRat start| ≤ 2 ^ (1023 : ℤ) := by
    rw [add_comm] at hsize
    exact (abs_sub _ _).trans hsize
  have hspan := (isRounded_sub hfinish hstart hdistance).finite
  obtain ⟨hpart, hwhole⟩ := toRat_mul_of_eq_one hspan hx hone
  refine ⟨hspan, (isRounded_add_of_le hstart hpart ?_).finite⟩
  have herror := abs_toRat_sub_sub_le hfinish hstart hspan
  have hsum : toRat start + toRat (finish - start) =
      toRat finish + (toRat (finish - start) - (toRat finish - toRat start)) := by ring
  have hstart' := abs_nonneg (toRat start)
  have hunit : (0 : ℚ) < 2 ^ (971 : ℤ) := by positivity
  have hrange : (2 : ℚ) ^ (1023 : ℤ) = 2 ^ 52 * 2 ^ (971 : ℤ) := by
    rw [← zpow_natCast, ← zpow_add₀ two_ne_zero]
    rfl
  rw [hwhole, hsum, largest]
  refine (abs_add_le _ _).trans ?_
  rw [hrange] at hsize hdistance
  generalize (2 : ℚ) ^ (971 : ℤ) = unit at hunit hsize hdistance ⊢
  norm_num at herror hsize hdistance ⊢
  linarith

end Blends

/-! ## Tweens at their ends -/

/-- No mode moves the ends of the range. -/
theorem Extend.normalize_ends (extend : Extend) :
    extend.normalize (0.0 : Float) = .along 0.0 ∧ extend.normalize (1.0 : Float) = .along 1.0 := by
  cases extend <;> decide +kernel

/-- What is greater than 1 is not less than 0, be it finite or not. -/
theorem not_lt_zero_of_one_lt {t : Float} (h : 1.0 < t) : ¬ t < 0.0 := by
  by_cases ht : t.isFinite = true
  · rw [not_lt_zero_iff ht]
    exact zero_le_one.trans ((one_lt_iff ht).mp h).le
  · intro h'
    have habove : (Float.toModel 1.0).unpack.compare t.toModel.unpack = some .lt :=
      beq_iff_eq.mp (decide_eq_true_iff.mp h)
    have hbelow : t.toModel.unpack.compare (Float.toModel 0.0).unpack = some .lt :=
      beq_iff_eq.mp (decide_eq_true_iff.mp h')
    have hone : (Float.toModel 1.0).unpack.isFinite = true := one_eq.1
    have hzero : (Float.toModel 0.0).unpack.isFinite = true := zero_eq.1
    replace ht : ¬ t.toModel.unpack.isFinite = true := ht
    generalize (Float.toModel 1.0).unpack = one at habove hone
    generalize (Float.toModel 0.0).unpack = zero at hbelow hzero
    generalize t.toModel.unpack = u at habove hbelow ht
    cases u with
    | infinity s =>
        cases s with
        | positive => cases zero <;> first | cases hbelow | cases hzero
        | negative => cases one <;> first | cases habove | cases hone
    | notANumber => cases hbelow
    | zero s => exact ht rfl
    | finite s m e hm => exact ht rfl

/-- **Tweens begin at their start, and come to their end up to rounding.** An interpolation reports
for its time ratio what its level says. At ratio 0 this is the start, whatever the mode, unless the
difference between the ends is out of range. Then it is no number there, and nothing finite at ratio
1. Otherwise the value at ratio 1 is the end if the difference needs no rounding, as between
multiples of a power of two that are not too far apart. In general it is off by at most one part in
`2 ^ 52` of the difference, and by so much a tween that holds its end jumps when it is over, as it
reports the end itself from then on. -/
theorem ends_met_up_to_rounding (hstart : start.isFinite = true) (hfinish : finish.isFinite = true)
    {mode : Easing} (hzero : (mode.apply (0.0 : Float) == 0.0) = true)
    (hone : (mode.apply (1.0 : Float) == 1.0) = true) :
    (∀ {V : Vocabulary} {M : Type} (host : Host Float V M) (i : Interpolation Float V)
      (clock : Clock Float) (w w₁ w₂ w₃ : World Float V M) (t : Float),
      (ratio clock i.time).Yields host w t w₁ → host.Answers (.read i.start clock) w₁ start w₂ →
      host.Answers (.read i.finish clock) w₂ finish w₃ → ∀ s w',
        (interpolation clock i).Yields host w s w' ↔
          s = Level.sampleAt ⟨start, finish, i.easing, i.extend⟩ t ∧ w' = w₃) ∧
    (∀ extend, ∃ v v', Level.sampleAt ⟨start, finish, mode, extend⟩ 0.0 = .value v ∧
      Level.sampleAt ⟨start, finish, mode, extend⟩ 1.0 = .value v' ∧
      ((finish - start).isFinite = false → v.isNaN = true ∧ v'.isFinite = false) ∧
      ((finish - start).isFinite = true → (v == start) = true ∧
        (v'.isFinite = true →
          |toRat v' - toRat finish| ≤ 2 ^ (-52 : ℤ) * |toRat finish - toRat start|) ∧
        (toRat (finish - start) = toRat finish - toRat start → (v' == finish) = true)) ∧
      (|toRat start| + |toRat finish| ≤ 2 ^ (1023 : ℤ) →
        (finish - start).isFinite = true ∧ v'.isFinite = true)) ∧
    ((finish - start).isFinite = true → ∀ n n' k : ℤ, -1074 ≤ k → toRat start = n * 2 ^ k →
      toRat finish = n' * 2 ^ k → |n' - n| ≤ 2 ^ 53 →
      toRat (finish - start) = toRat finish - toRat start) ∧
    ∀ t, 1.0 < t → Level.sampleAt ⟨start, finish, mode, .constant⟩ t = .ended finish := by
  obtain ⟨hbegins, hzero⟩ := (beq_iff zero_eq.1).mp hzero
  obtain ⟨hends, hone⟩ := (beq_iff one_eq.1).mp hone
  rw [zero_eq.2] at hzero
  rw [one_eq.2] at hone
  refine ⟨?_, fun extend => ?_, fun hspan _ _ _ => toRat_sub_of_multiples hstart hfinish hspan, ?_⟩
  · intro V M host i clock w w₁ w₂ w₃ t ht hx hy s w'
    exact (yields_interpolation.mpr ⟨t, w₁, start, w₂, finish, ht, hx, hy, rfl⟩).yields_iff
  · obtain ⟨hnormal, hnormal'⟩ := extend.normalize_ends
    refine ⟨Curve.lerp start finish (mode.apply 0.0), Curve.lerp start finish (mode.apply 1.0),
      ?_, ?_, fun hspan => ?_, fun hspan => ⟨?_, ?_, fun hexact => ?_⟩, fun hsize => ?_⟩
    · rw [Level.sampleAt, hnormal]
      rfl
    · rw [Level.sampleAt, hnormal']
      rfl
    · exact ⟨isNaN_lerp_of_eq_zero hbegins hspan hzero, isFinite_lerp_of_overflow hspan _⟩
    · exact (beq_iff hstart).mpr (lerp_of_eq_zero hstart hbegins hspan hzero)
    · exact abs_lerp_sub_le hstart hfinish hends hspan hone
    · exact (beq_iff hfinish).mpr
        (lerp_of_eq_one_of_exact hstart hfinish hends hspan hone hexact)
    · exact isFinite_lerp_of_size hstart hfinish hends hsize hone
  · intro t ht
    have hpast : Extend.constant.normalize t = .past :=
      (if_neg (not_lt_zero_of_one_lt ht)).trans (if_pos ht)
    rw [Level.sampleAt, hpast]
    rfl

namespace Dimming

/-! A lamp that is dimmed to a tenth. -/

def level : Level Float := ⟨1.0, 0.1, .linear, .constant⟩

/-- It gets there within the rounding of the difference, and is a tenth from then on. -/
theorem dims_up_to_rounding :
    ∃ v v', level.sampleAt 0.0 = .value v ∧ level.sampleAt 1.0 = .value v' ∧
      (v == 1.0) = true ∧
      |toRat v' - toRat 0.1| ≤ 2 ^ (-52 : ℤ) * |toRat 0.1 - toRat 1.0| ∧
      level.sampleAt 1.5 = .ended 0.1 := by
  obtain ⟨hstart, hfinish, hzero, hone, hpast⟩ : (1.0 : Float).isFinite = true ∧
      (0.1 : Float).isFinite = true ∧ (Easing.linear.apply (0.0 : Float) == 0.0) = true ∧
      (Easing.linear.apply (1.0 : Float) == 1.0) = true ∧ (1.0 : Float) < 1.5 := by
    decide +kernel
  have hsize : |toRat 1.0| + |toRat 0.1| ≤ 2 ^ (1023 : ℤ) := by
    have hsmall : |toRat 1.0| + |toRat 0.1| ≤ 2 ^ (1 : ℤ) := by decide +kernel
    exact hsmall.trans (zpow_le_zpow_right₀ one_le_two (by decide))
  obtain ⟨-, hends, -, hover⟩ := ends_met_up_to_rounding hstart hfinish hzero hone
  obtain ⟨v, v', hv, hv', -, hinRange, hfinite⟩ := hends .constant
  obtain ⟨hspan, hlands⟩ := hfinite hsize
  obtain ⟨hbegins, hoff, -⟩ := hinRange hspan
  exact ⟨v, v', hv, hv', hbegins, hoff hlands, hover 1.5 hpast⟩

/-- It is not a tenth when it gets there, although its curve ends at exactly 1. If the ends are too
far apart for the format, there is not even a value to begin with. -/
theorem misses_ends :
    ((Easing.linear.apply (0.0 : Float) == 0.0) = true ∧
      (Easing.linear.apply (1.0 : Float) == 1.0) = true) ∧
    (level.sampleAt 1.0 = .value 0.09999999999999998 ∧ level.sampleAt 1.5 = .ended 0.1 ∧
      ((0.09999999999999998 : Float) == 0.1) = false) ∧
    ∃ v, Level.sampleAt ⟨1e308, -1e308, .linear, .constant⟩ (0.0 : Float) = .value v ∧
      v.isNaN = true :=
  ⟨by decide +kernel, by decide +kernel, _, rfl, by decide +kernel⟩

end Dimming

end Inbetween
