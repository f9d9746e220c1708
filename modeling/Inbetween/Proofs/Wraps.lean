import Mathlib.Algebra.Order.ToIntervalMod
import Inbetween.Derived
import Inbetween.Proofs.Playback

/-!
# Wrapped values

Without rounding, a value that is wrapped between two bounds is moved by whole widths of the range
into it, so that it is not below the lower bound and is below the upper one. There is just one such
number, whatever the signs of the value and of the bounds are.
-/

namespace Inbetween

open Act Evaluate

/-! ## Samples -/

section Samples

variable {α : Type} [Scalar α] {V : Vocabulary} {M : Type} {host : Host α V M}
  {w w' : World α V M} {clock : Clock α}

/-- The bounds are read before the value. -/
theorem yields_wrap {a : AnimationId} {low high source : Slot α V} {s : Sample α} :
    (strategy host a clock (.wrap low high source)).Yields host w s w' ↔
      ∃ x w₁ y w₂ v, host.Answers (.read low clock) w x w₁ ∧
        host.Answers (.read high clock) w₁ y w₂ ∧ host.Answers (.read source clock) w₂ v w' ∧
        s = .value (wrapBetween x y v) := by
  simp only [strategy, bind_eq_bind, yields_bind, pure_eq_done, yields_done]
  constructor
  · rintro ⟨x, w₁, hx, y, w₂, hy, v, w₃, hv, rfl, rfl⟩
    exact ⟨x, w₁, y, w₂, v, yields_ask.mp hx, yields_ask.mp hy, yields_ask.mp hv, rfl⟩
  · rintro ⟨x, w₁, y, w₂, v, hx, hy, hv, rfl⟩
    exact ⟨x, w₁, yields_ask.mpr hx, y, w₂, yields_ask.mpr hy, v, w', yields_ask.mpr hv, rfl, rfl⟩

end Samples

section Exact

variable {K : Type} [Field K] [LinearOrder K] [IsStrictOrderedRing K] [FloorRing K]

/-! ## Remainders -/

namespace Scalar

omit [IsStrictOrderedRing K] in
theorem exists_towardZero_eq (x : K) : ∃ n : ℤ, towardZero x = n := by
  rw [towardZero]
  split
  · exact ⟨_, rfl⟩
  · exact ⟨_, rfl⟩

theorem abs_sub_towardZero_lt (x : K) : |x - towardZero x| < 1 := by
  rw [towardZero]
  split
  · rw [abs_sub_comm, abs_of_nonneg (sub_nonneg.mpr (Int.le_ceil x))]
    exact sub_lt_iff_lt_add'.mpr (Int.ceil_lt_add_one x)
  · rw [Int.self_sub_floor, Int.abs_fract]
    exact Int.fract_lt_one x

variable [Elementary K] {x y : K}

/-- A remainder has the sign of the dividend, but it is smaller than the divisor. -/
theorem abs_remainder_lt (hy : 0 < y) :
    |remainder x y| < y ∧ ∃ n : ℤ, x = remainder x y + n * y := by
  obtain ⟨n, hn⟩ := exists_towardZero_eq (x / y)
  have hsize := abs_sub_towardZero_lt (x / y)
  have hremainder : remainder x y = (x / y - n) * y := by
    show x - y * towardZero (x / y) = _
    rw [hn]
    field_simp
  rw [hremainder]
  constructor
  · rw [abs_mul, abs_of_pos hy, ← hn]
    exact mul_lt_of_lt_one_left hy hsize
  · refine ⟨n, ?_⟩
    field_simp
    ring

/-- The remainder that is not negative, whatever the sign of the dividend. -/
theorem euclidean_mem_Ico (hy : 0 < y) :
    euclidean x y ∈ Set.Ico 0 y ∧ ∃ n : ℤ, x = euclidean x y + n * y := by
  obtain ⟨hsize, n, hn⟩ := abs_remainder_lt (x := x) hy
  obtain ⟨hlow, hhigh⟩ := abs_lt.mp hsize
  simp only [euclidean, exact_zero]
  split
  · rename_i hneg
    have habs : abs y = y := abs_of_pos hy
    rw [habs]
    refine ⟨⟨by linarith, by linarith⟩, n - 1, ?_⟩
    push_cast
    linarith
  · rename_i hnonneg
    exact ⟨⟨not_lt.mp hnonneg, hhigh⟩, n, hn⟩

end Scalar

/-! ## Into the range -/

section Ranges

variable [Elementary K] {a b u v : K}

omit [IsStrictOrderedRing K] in
theorem wrapBetween_eq (a b v : K) :
    wrapBetween a b v = min a b + Scalar.euclidean (v - min a b) (max a b - min a b) := by
  rcases le_or_gt a b with h | h
  · simp only [wrapBetween, if_pos h, min_eq_left h, max_eq_right h]
  · simp only [wrapBetween, if_neg h.not_ge, min_eq_right h.le, max_eq_left h.le]

/-- The wrapped value is the representative of the value from the lower bound on. -/
theorem wrapBetween_eq_toIcoMod (h : 0 < |a - b|) (v : K) :
    wrapBetween a b v = toIcoMod h (min a b) v := by
  symm
  have hwidth : max a b - min a b = |a - b| := max_sub_min_eq_abs' a b
  obtain ⟨⟨hlow, hhigh⟩, n, hn⟩ := Scalar.euclidean_mem_Ico (x := v - min a b) h
  rw [wrapBetween_eq, hwidth, toIcoMod_eq_iff]
  refine ⟨⟨le_add_of_nonneg_right hlow, add_lt_add_right hhigh _⟩, n, ?_⟩
  rw [zsmul_eq_mul]
  linarith

theorem wrapBetween_eq_iff (h : a ≠ b) :
    wrapBetween a b v = u ↔ (min a b ≤ u ∧ u < max a b) ∧ ∃ n : ℤ, v = u + n * |a - b| := by
  have hwidth : min a b + |a - b| = max a b := by
    rw [← max_sub_min_eq_abs' a b, add_sub_cancel]
  rw [wrapBetween_eq_toIcoMod (abs_sub_pos.mpr h), toIcoMod_eq_iff, hwidth, Set.mem_Ico]
  simp only [zsmul_eq_mul]

omit [IsStrictOrderedRing K] in
theorem wrapBetween_comm (a b v : K) : wrapBetween b a v = wrapBetween a b v := by
  rw [wrapBetween_eq, wrapBetween_eq, min_comm, max_comm]

variable {V : Vocabulary} {M : Type}

/-- **A wrapped value is moved into its range by whole widths of it.** A wrap reports the wrapped
value of what it has read. This is the one number that is not below the lower bound, is below the
upper one, and differs from the value by a multiple of their distance. So the order of the bounds
does not matter, a value that has been wrapped is not changed again, values that differ by whole
widths are wrapped to the same one, and values in the range stay as they are. -/
theorem wraps_into_range :
    (∀ (host : Host K V M) (a : AnimationId) (low high source : Slot K V) (clock : Clock K)
      (w w₁ w₂ w₃ : World K V M) (x y v : K),
      host.Answers (.read low clock) w x w₁ → host.Answers (.read high clock) w₁ y w₂ →
      host.Answers (.read source clock) w₂ v w₃ → ∀ s w',
        (strategy host a clock (.wrap low high source)).Yields host w s w' ↔
          s = .value (wrapBetween x y v) ∧ w' = w₃) ∧
    ∀ a b : K, a ≠ b →
      (∀ v u, wrapBetween a b v = u ↔
        (min a b ≤ u ∧ u < max a b) ∧ ∃ n : ℤ, v = u + n * |a - b|) ∧
      (∀ v, wrapBetween b a v = wrapBetween a b v) ∧
      (∀ v, wrapBetween a b (wrapBetween a b v) = wrapBetween a b v) ∧
      (∀ v, ∀ k : ℤ, wrapBetween a b (v + k * |a - b|) = wrapBetween a b v) ∧
      ∀ v, min a b ≤ v → v < max a b → wrapBetween a b v = v := by
  refine ⟨?_, ?_⟩
  · intro host a low high source clock w w₁ w₂ w₃ x y v hx hy hv s w'
    exact (yields_wrap.mpr ⟨x, w₁, y, w₂, v, hx, hy, hv, rfl⟩).yields_iff
  · intro a b h
    have hwidth := abs_sub_pos.mpr h
    refine ⟨?_, ?_, ?_, ?_, ?_⟩
    · intro v u
      exact wrapBetween_eq_iff h
    · intro v
      exact wrapBetween_comm a b v
    · intro v
      simp only [wrapBetween_eq_toIcoMod hwidth, toIcoMod_toIcoMod]
    · intro v k
      rw [wrapBetween_eq_toIcoMod hwidth, wrapBetween_eq_toIcoMod hwidth, ← zsmul_eq_mul,
        toIcoMod_add_zsmul]
    · intro v hlow hhigh
      exact (wrapBetween_eq_iff h).mpr ⟨⟨hlow, hhigh⟩, 0, by simp⟩

end Ranges

end Exact

namespace Heading

/-! A heading that is kept within half a turn to either side. The upper bound is given first. -/

def vocabulary : Vocabulary := ⟨Empty, Empty, Empty⟩

def host : Host ℚ vocabulary Unit := ⟨Empty.elim, Empty.elim, Empty.elim⟩

def world : World ℚ vocabulary Unit := { memory := () }

/-- After one and a half turns and ten degrees, it is ten degrees past the way back. -/
theorem faces_back :
    (strategy host 0 ⟨0, 0⟩ (.wrap (.constant 180) (.constant (-180)) (.constant 550))).Yields host
      world (.value (-170)) world ∧
    wrapBetween (-180) 180 (550 : ℚ) = -170 ∧
    wrapBetween 180 (-180) (-170 : ℚ) = -170 ∧
    wrapBetween 180 (-180) (-1250 : ℚ) = -170 := by
  obtain ⟨reports, wraps⟩ := wraps_into_range (K := ℚ) (V := vocabulary) (M := Unit)
  obtain ⟨unique, swapped, -, turned, kept⟩ := wraps 180 (-180) (by norm_num)
  have hwidth : |(180 : ℚ) - -180| = 360 := by norm_num
  have hinside : min (180 : ℚ) (-180) ≤ -170 ∧ (-170 : ℚ) < max 180 (-180) := by norm_num
  have hvalue : wrapBetween 180 (-180) (550 : ℚ) = -170 := by
    apply (unique _ _).mpr
    refine ⟨hinside, 2, ?_⟩
    rw [hwidth]
    norm_num
  have hkept := kept (-170) hinside.1 hinside.2
  refine ⟨?_, ?_, hkept, ?_⟩
  · apply (reports host 0 (.constant 180) (.constant (-180)) (.constant 550) ⟨0, 0⟩ world world
      world world 180 (-180) 550 answers_read_constant answers_read_constant answers_read_constant
      _ _).mpr
    exact ⟨congrArg Sample.value hvalue.symm, rfl⟩
  · rw [swapped, hvalue]
  · have hturned := turned (-170) (-3)
    rw [hwidth, hkept] at hturned
    norm_num at hturned
    exact hturned

end Heading

end Inbetween
