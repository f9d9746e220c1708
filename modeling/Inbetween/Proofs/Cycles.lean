import Mathlib.Algebra.Order.Round
import Inbetween.Extend
import Inbetween.Proofs.Reals

/-!
# Cycles

Without rounding, the ratios that a repeating tween passes on differ from the raw ones by whole
numbers, and those of a reversing tween are distances: that of a ratio to the nearest even number.
What there is to say about a reversing tween is then said by how distances behave.
-/

namespace Inbetween

variable {K : Type} [Field K] [LinearOrder K] [IsStrictOrderedRing K] [FloorRing K] [Elementary K]

/-! ## Integral parts -/

namespace Scalar

omit [IsStrictOrderedRing K] in
theorem trunc_of_nonneg {t : K} (h : 0 ≤ t) : trunc t = ⌊t⌋ := if_neg (not_lt.mpr h)

omit [IsStrictOrderedRing K] in
theorem trunc_of_neg {t : K} (h : t < 0) : trunc t = ⌈t⌉ := if_pos h

/-- Half of a whole number, rounded down. -/
theorem floor_half (n : ℤ) : ⌊(n : K) / 2⌋ = n / 2 := by
  have hlow : (2 : K) * ((n / 2 : ℤ) : K) ≤ n := by exact_mod_cast Int.mul_ediv_self_le two_ne_zero
  have hhigh : (n : K) < 2 * ((n / 2 : ℤ) : K) + 2 := by
    exact_mod_cast Int.lt_mul_ediv_self_add two_pos
  rw [Int.floor_eq_iff]
  constructor
  · linarith
  · linarith

theorem remainder_two {n : ℤ} (h : 0 ≤ n) : remainder (n : K) 2.0 = ((n % 2 : ℤ) : K) := by
  have hhalf : 0 ≤ (n : K) / 2 := div_nonneg (Int.cast_nonneg h) zero_le_two
  have htrunc : trunc ((n : K) / 2) = ⌊(n : K) / 2⌋ := trunc_of_nonneg hhalf
  show (n : K) - 2.0 * trunc ((n : K) / 2.0) = _
  rw [(by norm_num : (2.0 : K) = 2), htrunc, floor_half, Int.emod_def]
  push_cast
  ring

end Scalar

namespace Extend

/-! ## Starting over -/

theorem one_lt_tolerance : (1 : K) < tolerance := by norm_num [tolerance]

omit [IsStrictOrderedRing K] in
theorem wrap_of_tolerated {t : K} (h : 0 ≤ t) (h' : t ≤ 1.0001) : wrap t = t := by
  have hunder : ¬ t > tolerance := not_lt.mpr h'
  have hpositive : ¬ t < 0.0 := by
    rw [Scalar.exact_zero]
    exact not_lt.mpr h
  rw [wrap, if_neg hunder, if_neg hpositive]

theorem wrap_of_over {t : K} (h : 1.0001 < t) : wrap t = Int.fract t := by
  have hpositive : 0 ≤ t := zero_le_one.trans (one_lt_tolerance.trans h).le
  have hover : t > tolerance := h
  rw [wrap, if_pos hover, Scalar.trunc_of_nonneg hpositive, Int.self_sub_floor]

theorem wrap_of_neg {t : K} (h : t < 0) : wrap t = 1 + t - ⌈t⌉ := by
  have hunder : ¬ t > tolerance := not_lt.mpr (h.le.trans (zero_le_one.trans one_lt_tolerance.le))
  rw [wrap, if_neg hunder, Scalar.exact_zero, if_pos h, Scalar.trunc_of_neg h, Scalar.exact_one]

/-- A wrapped ratio is the one number from 0 on and below 1 that differs by a whole number. -/
theorem wrap_eq_iff_of_over {t u : K} (h : 1.0001 < t) :
    wrap t = u ↔ (0 ≤ u ∧ u < 1) ∧ ∃ n : ℤ, t = u + n := by
  rw [wrap_of_over h, Int.fract_eq_iff, and_assoc]
  refine and_congr_right fun _ => and_congr_right fun _ => exists_congr fun n => ?_
  rw [sub_eq_iff_eq_add']

/-- A negative ratio is moved above 0 and at most to 1. -/
theorem wrap_eq_iff_of_neg {t u : K} (h : t < 0) :
    wrap t = u ↔ (0 < u ∧ u ≤ 1) ∧ ∃ n : ℤ, t = u + n := by
  rw [wrap_of_neg h]
  constructor
  · rintro rfl
    have hlow := Int.ceil_lt_add_one t
    have hhigh := Int.le_ceil t
    refine ⟨⟨by linarith, by linarith⟩, ⌈t⌉ - 1, ?_⟩
    push_cast
    ring
  · rintro ⟨⟨hlow, hhigh⟩, n, rfl⟩
    have hceil : ⌈u + (n : K)⌉ = n + 1 := by
      rw [Int.ceil_add_intCast, add_comm]
      congr 1
      rw [Int.ceil_eq_iff]
      constructor
      · simpa using hlow
      · simpa using hhigh
    rw [hceil]
    push_cast
    ring

/-- Of all ratios, only those that are tolerated stay outside of the range from 0 to 1. -/
theorem wrap_mem {t : K} (h : ¬ (1 < t ∧ t ≤ 1.0001)) : 0 ≤ wrap t ∧ wrap t ≤ 1 := by
  rcases lt_or_ge t 0 with hneg | hpos
  · obtain ⟨⟨hlow, hhigh⟩, -⟩ := (wrap_eq_iff_of_neg hneg).mp rfl
    exact ⟨hlow.le, hhigh⟩
  · rcases le_or_gt t 1 with hle | hgt
    · rw [wrap_of_tolerated hpos (hle.trans one_lt_tolerance.le)]
      exact ⟨hpos, hle⟩
    · have hover : 1.0001 < t := not_le.mp fun hle => h ⟨hgt, hle⟩
      obtain ⟨⟨hlow, hhigh⟩, -⟩ := (wrap_eq_iff_of_over hover).mp rfl
      exact ⟨hlow, hhigh.le⟩

theorem wrap_wrap (t : K) : wrap (wrap t) = wrap t := by
  by_cases h : 1 < t ∧ t ≤ 1.0001
  · obtain ⟨hlow, hhigh⟩ := h
    have hpos : 0 ≤ t := zero_le_one.trans hlow.le
    rw [wrap_of_tolerated hpos hhigh, wrap_of_tolerated hpos hhigh]
  · obtain ⟨hlow, hhigh⟩ := wrap_mem h
    exact wrap_of_tolerated hlow (hhigh.trans one_lt_tolerance.le)

/-! ## Running back -/

/-- The way back is taken in odd cycles, on both sides of zero. -/
theorem fold_eq (t : K) :
    fold t = if Odd ⌊|t|⌋ then 1 - Int.fract |t| else Int.fract |t| := by
  have hsize : (if t < 0.0 then -t else t) = |t| := by
    rw [Scalar.exact_zero]
    split
    · rename_i h
      exact (abs_of_neg h).symm
    · rename_i h
      exact (abs_of_nonneg (not_lt.mp h)).symm
  have hodd : (Scalar.remainder ((⌊|t|⌋ : ℤ) : K) 2.0 == 1.0) = true ↔ Odd ⌊|t|⌋ := by
    rw [Scalar.remainder_two (Int.floor_nonneg.mpr (abs_nonneg t)), Int.odd_iff]
    show decide (((⌊|t|⌋ % 2 : ℤ) : K) = 1.0) = true ↔ _
    rw [decide_eq_true_iff, Scalar.exact_one]
    exact_mod_cast Iff.rfl
  simp only [fold, hsize, Scalar.trunc_of_nonneg (abs_nonneg t), Int.self_sub_floor, hodd]
  rw [Scalar.exact_one]

/-- An even number at a distance of at most 1 is a nearest one. -/
theorem isLeast_of_near {t : K} {m : ℤ} (h : |t - 2 * m| ≤ 1) :
    IsLeast (Set.range fun n : ℤ => |t - 2 * n|) |t - 2 * m| := by
  refine ⟨⟨m, rfl⟩, ?_⟩
  rintro _ ⟨n, rfl⟩
  show |t - 2 * m| ≤ |t - 2 * n|
  rcases eq_or_ne n m with rfl | hne
  · exact le_rfl
  · -- Two different even numbers are at least 2 apart.
    have hapart : (2 : K) ≤ |2 * (n : K) - 2 * m| := by
      rw [← mul_sub, abs_mul, abs_two]
      have hone : (1 : K) ≤ |(n : K) - m| := by
        exact_mod_cast Int.one_le_abs (sub_ne_zero.mpr hne)
      linarith
    have htriangle := abs_sub_le (2 * (n : K)) t (2 * m)
    rw [abs_sub_comm (2 * (n : K)) t] at htriangle
    linarith

/-- The folded ratio is the distance to an even number, and at most 1. -/
theorem exists_fold_eq (t : K) : ∃ m : ℤ, fold t = |t - 2 * m| ∧ |t - 2 * m| ≤ 1 := by
  have hlow := Int.fract_nonneg |t|
  have hhigh := (Int.fract_lt_one |t|).le
  have hsum := Int.floor_add_fract |t|
  -- On the positive side the even number is at either end of the cycle.
  have hpositive : ∃ m : ℤ, fold t = |(|t| - 2 * m)| ∧ |(|t| - 2 * m)| ≤ 1 := by
    rw [fold_eq]
    split
    · rename_i hodd
      obtain ⟨k, hk⟩ := hodd
      have hsize : |t| - 2 * ((k + 1 : ℤ) : K) = -(1 - Int.fract |t|) := by
        rw [hk] at hsum
        push_cast at hsum ⊢
        linarith
      refine ⟨k + 1, ?_⟩
      rw [hsize, abs_neg, abs_of_nonneg (sub_nonneg.mpr hhigh)]
      exact ⟨rfl, sub_le_self 1 hlow⟩
    · rename_i hodd
      obtain ⟨k, hk⟩ := Int.not_odd_iff_even.mp hodd
      have hsize : |t| - 2 * (k : K) = Int.fract |t| := by
        rw [hk] at hsum
        push_cast at hsum ⊢
        linarith
      refine ⟨k, ?_⟩
      rw [hsize, abs_of_nonneg hlow]
      exact ⟨rfl, hhigh⟩
  obtain ⟨m, heq, hle⟩ := hpositive
  rcases abs_choice t with ht | ht
  · rw [ht] at heq hle
    exact ⟨m, heq, hle⟩
  · have hmirror : |t - 2 * ((-m : ℤ) : K)| = |(|t| - 2 * m)| := by
      rw [ht, ← abs_neg]
      push_cast
      ring_nf
    refine ⟨-m, ?_⟩
    rw [hmirror]
    exact ⟨heq, hle⟩

/-- The folded ratio is the distance to the nearest even number. -/
theorem isLeast_fold (t : K) : IsLeast (Set.range fun n : ℤ => |t - 2 * n|) (fold t) := by
  obtain ⟨m, heq, hle⟩ := exists_fold_eq t
  rw [heq]
  exact isLeast_of_near hle

theorem fold_nonneg (t : K) : 0 ≤ fold t := by
  obtain ⟨m, heq, -⟩ := exists_fold_eq t
  rw [heq]
  exact abs_nonneg _

theorem fold_le_one (t : K) : fold t ≤ 1 := by
  obtain ⟨m, heq, hle⟩ := exists_fold_eq t
  exact heq.trans_le hle

/-- A motion of the line that takes even numbers to even numbers keeps distances. -/
theorem fold_eq_of_equiv {t t' : K} (e : ℤ ≃ ℤ)
    (h : ∀ n : ℤ, |t - 2 * n| = |t' - 2 * (e n : ℤ)|) : fold t = fold t' := by
  have hrange : (Set.range fun n : ℤ => |t - 2 * (n : K)|) =
      Set.range fun n : ℤ => |t' - 2 * (n : K)| := by
    rw [← e.surjective.range_comp fun n : ℤ => |t' - 2 * (n : K)|]
    exact congrArg Set.range (funext h)
  have hleast := isLeast_fold t
  rw [hrange] at hleast
  exact hleast.unique (isLeast_fold t')

theorem fold_neg (t : K) : fold (-t) = fold t := by
  apply fold_eq_of_equiv (Equiv.neg ℤ)
  intro n
  rw [← abs_neg, Equiv.neg_apply]
  push_cast
  ring_nf

theorem fold_add_two (t : K) : fold (t + 2) = fold t := by
  apply fold_eq_of_equiv (Equiv.subRight 1)
  intro n
  rw [Equiv.subRight_apply]
  push_cast
  ring_nf

theorem fold_two_sub (t : K) : fold (2 - t) = fold t := by
  rw [← fold_neg t, ← fold_add_two (-t), neg_add_eq_sub]

theorem fold_le_add (t t' : K) : fold t ≤ fold t' + |t - t'| := by
  obtain ⟨m, heq, -⟩ := exists_fold_eq t'
  have hleast : fold t ≤ |t - 2 * m| := (isLeast_fold t).2 ⟨m, rfl⟩
  have htriangle := abs_sub_le t t' (2 * m)
  rw [heq, add_comm]
  exact hleast.trans htriangle

/-- Distances do not change by more than the points do. -/
theorem abs_fold_sub_le (t t' : K) : |fold t - fold t'| ≤ |t - t'| := by
  have h := fold_le_add t t'
  have h' := fold_le_add t' t
  rw [abs_sub_comm t' t] at h'
  rw [abs_sub_le_iff]
  constructor
  · linarith
  · linarith

theorem fold_of_mem {t : K} (h : 0 ≤ t) (h' : t ≤ 1) : fold t = t := by
  have hzero : |t - 2 * ((0 : ℤ) : K)| = t := by
    rw [Int.cast_zero, mul_zero, sub_zero, abs_of_nonneg h]
  have hleast := isLeast_of_near (hzero.trans_le h')
  rw [hzero] at hleast
  exact (isLeast_fold t).unique hleast

/-! ## All modes -/

omit [IsStrictOrderedRing K] in
/-- The ends are held outside of the range from 0 to 1. -/
theorem normalize_constant_eq_along {t r : K} :
    constant.normalize t = .along r ↔ r = t ∧ 0 ≤ t ∧ t ≤ 1 := by
  rw [normalize, Scalar.exact_zero, Scalar.exact_one]
  rcases lt_or_ge t 0 with hneg | hpos
  · rw [if_pos hneg]
    constructor
    · nofun
    · rintro ⟨-, hpos, -⟩
      exact absurd hneg hpos.not_gt
  · rw [if_neg hpos.not_gt]
    rcases lt_or_ge 1 t with hpast | hle
    · rw [if_pos hpast]
      constructor
      · nofun
      · rintro ⟨-, -, hle⟩
        exact absurd hpast hle.not_gt
    · rw [if_neg hle.not_gt, Phase.along.injEq]
      constructor
      · rintro rfl
        exact ⟨rfl, hpos, hle⟩
      · rintro ⟨rfl, -, -⟩
        rfl

/-- A ratio that a mode has passed on is passed on again as it is. -/
theorem normalize_normalize {mode : Extend} {t r : K} (h : mode.normalize t = .along r) :
    mode.normalize r = .along r := by
  cases mode with
  | constant =>
      obtain ⟨rfl, -, -⟩ := normalize_constant_eq_along.mp h
      exact h
  | extrapolate => rfl
  | repeating =>
      obtain rfl := Phase.along.inj h
      exact congrArg Phase.along (wrap_wrap t)
  | reverse =>
      obtain rfl := Phase.along.inj h
      exact congrArg Phase.along (fold_of_mem (fold_nonneg t) (fold_le_one t))

/-- Ratios that are passed on are in range, but for those that repetition tolerates. -/
theorem mem_of_normalize_eq_along {mode : Extend} {t r : K}
    (hmode : mode = .constant ∨ mode = .reverse ∨ mode = .repeating ∧ ¬ (1 < t ∧ t ≤ 1.0001))
    (h : mode.normalize t = .along r) : 0 ≤ r ∧ r ≤ 1 := by
  rcases hmode with rfl | rfl | ⟨rfl, hout⟩
  · obtain ⟨rfl, hrange⟩ := normalize_constant_eq_along.mp h
    exact hrange
  · obtain rfl := Phase.along.inj h
    exact ⟨fold_nonneg t, fold_le_one t⟩
  · obtain rfl := Phase.along.inj h
    exact wrap_mem hout

/-- **What becomes of a ratio.** A repeating tween passes on a ratio from 0 to the tolerance as it
is. Beyond the tolerance it passes on the number from 0 on and below 1 that differs from the ratio
by a whole number, and below zero the one that is above 0 and at most 1. A reversing tween passes on
the distance to the nearest even number. So what it passes on is from 0 to 1, is the same on both
sides of zero, again after two cycles, and mirrored at the end of the first cycle, and does not
change by more than the ratio does. What a mode has passed on, it passes on as it is. -/
theorem ratios_normalized :
    (∀ t : K, 0 ≤ t → t ≤ 1.0001 → repeating.normalize t = .along t) ∧
    (∀ t u : K, 1.0001 < t →
      (repeating.normalize t = .along u ↔ (0 ≤ u ∧ u < 1) ∧ ∃ n : ℤ, t = u + n)) ∧
    (∀ t u : K, t < 0 →
      (repeating.normalize t = .along u ↔ (0 < u ∧ u ≤ 1) ∧ ∃ n : ℤ, t = u + n)) ∧
    (∀ t r : K, reverse.normalize t = .along r ↔
      IsLeast (Set.range fun n : ℤ => |t - 2 * n|) r) ∧
    (∀ t : K, ∃ r, reverse.normalize t = .along r ∧ 0 ≤ r ∧ r ≤ 1) ∧
    (∀ t : K, reverse.normalize (-t) = reverse.normalize t) ∧
    (∀ t : K, reverse.normalize (t + 2) = reverse.normalize t) ∧
    (∀ t : K, reverse.normalize (2 - t) = reverse.normalize t) ∧
    (∀ t t' r r' : K, reverse.normalize t = .along r → reverse.normalize t' = .along r' →
      |r - r'| ≤ |t - t'|) ∧
    ∀ (mode : Extend) (t r : K), mode.normalize t = .along r → mode.normalize r = .along r := by
  refine ⟨?_, ?_, ?_, ?_, ?_, ?_, ?_, ?_, ?_, ?_⟩
  · intro t h h'
    exact congrArg Phase.along (wrap_of_tolerated h h')
  · intro t u h
    rw [normalize, Phase.along.injEq]
    exact wrap_eq_iff_of_over h
  · intro t u h
    rw [normalize, Phase.along.injEq]
    exact wrap_eq_iff_of_neg h
  · intro t r
    rw [normalize, Phase.along.injEq]
    constructor
    · rintro rfl
      exact isLeast_fold t
    · intro h
      exact (isLeast_fold t).unique h
  · intro t
    exact ⟨fold t, rfl, fold_nonneg t, fold_le_one t⟩
  · intro t
    exact congrArg Phase.along (fold_neg t)
  · intro t
    exact congrArg Phase.along (fold_add_two t)
  · intro t
    exact congrArg Phase.along (fold_two_sub t)
  · intro t t' r r' h h'
    obtain rfl := Phase.along.inj h
    obtain rfl := Phase.along.inj h'
    exact abs_fold_sub_le t t'
  · intro mode t r h
    exact normalize_normalize h

/-- Ratios of real numbers, one for each case. -/
theorem ratios_normalized_real :
    repeating.normalize (1.00005 : ℝ) = .along 1.00005 ∧
    repeating.normalize (13 / 4 : ℝ) = .along (1 / 4) ∧
    repeating.normalize (-1 : ℝ) = .along 1 ∧
    reverse.normalize (5 / 4 : ℝ) = .along (3 / 4) ∧
    |(3 / 4 : ℝ) - 1 / 4| ≤ |(5 / 4 : ℝ) - 1 / 4| ∧
    reverse.normalize (3 / 4 : ℝ) = .along (3 / 4) := by
  obtain ⟨kept, beyond, below, nearest, -, -, -, -, lipschitz, again⟩ := ratios_normalized (K := ℝ)
  have hnear : |(5 / 4 : ℝ) - 2 * ((1 : ℤ) : ℝ)| = 3 / 4 := by norm_num [abs_of_neg]
  have hthere : reverse.normalize (5 / 4 : ℝ) = .along (3 / 4) := by
    apply (nearest _ _).mpr
    rw [← hnear]
    exact isLeast_of_near (hnear.trans_le (by norm_num))
  have hfirst : reverse.normalize (1 / 4 : ℝ) = .along (1 / 4) :=
    congrArg Phase.along (fold_of_mem (by norm_num) (by norm_num))
  refine ⟨kept _ (by norm_num) (by norm_num), ?_, ?_, hthere, ?_, again _ _ _ hthere⟩
  · exact (beyond _ _ (by norm_num)).mpr ⟨⟨by norm_num, by norm_num⟩, 3, by norm_num⟩
  · exact (below _ _ (by norm_num)).mpr ⟨⟨by norm_num, by norm_num⟩, -2, by norm_num⟩
  · exact lipschitz _ _ _ _ hthere hfirst

end Extend

end Inbetween
