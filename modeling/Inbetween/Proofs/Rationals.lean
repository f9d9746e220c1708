import Inbetween.Binary64.Scalar
import Inbetween.Proofs.Exact
import Inbetween.Proofs.Rounding

/-!
# Numbers as rationals

What the operations and comparisons of binary64 numbers mean for the rational numbers that they
stand for: comparisons are exact, sums, differences and products are rounded, and integral parts are
exact again.
-/

namespace Inbetween

namespace Binary64

open Float.Model Float.Model.UnpackedFloat

/-- The rational number that a number stands for. It is zero for those that are not finite. -/
def toRat (x : Float) : ℚ := quantity x.toModel.unpack

/-- The number is finite, and it is what the exact result is rounded to. -/
structure IsRounded (exact : ℚ) (z : Float) : Prop where
  finite : z.isFinite = true
  rounds : Rounds exact (toRat z)

variable {x y z : Float}

/-! ## Parts -/

theorem toNat_unpackExponent (x : Float) :
    (@unpackExponent Format.binary64 x.toModel.toBits.toBitVec).toNat = exponentField x := by
  rw [unpackExponent_def, BitVec.extractLsb'_toNat, Nat.shiftRight_eq_div_pow]
  rfl

theorem toNat_unpackMantissa (x : Float) :
    (@unpackMantissa Format.binary64 x.toModel.toBits.toBitVec).toNat = fractionField x := by
  rw [unpackMantissa_def, BitVec.extractLsb'_toNat, Nat.shiftRight_eq_div_pow, Nat.pow_zero,
    Nat.div_one]
  rfl

theorem unit_unpackSign (x : Float) :
    unit (Sign.ofBitVec (@unpackSign Format.binary64 x.toModel.toBits.toBitVec)) =
      if isNegative x then -1 else 1 := by
  have hbit : (@unpackSign Format.binary64 x.toModel.toBits.toBitVec).toNat =
      x.toBits.toNat / Nat.pow 2 63 := by
    rw [unpackSign_def, BitVec.extractLsb'_toNat, Nat.shiftRight_eq_div_pow]
    exact Nat.mod_eq_of_lt (Nat.div_lt_of_lt_mul x.toBits.toNat_lt)
  rw [isNegative, ← hbit]
  generalize @unpackSign Format.binary64 x.toModel.toBits.toBitVec = b
  revert b
  decide

theorem readAs_of_isFinite (hx : x.isFinite = true) :
    ReadAs (Sign.ofBitVec (@unpackSign Format.binary64 x.toModel.toBits.toBitVec))
      (exponentField x) (fractionField x) x.toModel.unpack := by
  rw [← toNat_unpackExponent, ← toNat_unpackMantissa]
  exact readAs_unpack hx

theorem fractionField_lt (x : Float) : fractionField x < 2 ^ 52 := Nat.mod_lt _ (by decide)

theorem normalized_of_isFinite (hx : x.isFinite = true) : Normalized x.toModel.unpack :=
  (readAs_of_isFinite hx).normalized (fractionField_lt x)

theorem small_of_isFinite (hx : x.isFinite = true) : Small 971 x.toModel.unpack :=
  (readAs_of_isFinite hx).small (fractionField_lt x)

/-- A finite number is determined by what it is unpacked to. -/
theorem eq_of_unpack_eq (hx : x.isFinite = true) (h : x.toModel.unpack = y.toModel.unpack) :
    x = y := by
  have hy : y.isFinite = true := by
    show y.toModel.unpack.isFinite = true
    rw [← h]
    exact hx
  obtain ⟨hsign, hfield, hfraction⟩ := (h ▸ readAs_of_isFinite hx).unique (readAs_of_isFinite hy)
    (fractionField_lt x) (fractionField_lt y)
  have hnegative : x.toBits.toNat / 2 ^ 63 = y.toBits.toNat / 2 ^ 63 := by
    have hx' := x.toBits.toNat_lt
    have hy' := y.toBits.toNat_lt
    have hunit := congrArg unit hsign
    simp only [unit_unpackSign, isNegative, beq_iff_eq, Nat.pow_eq] at hunit
    split at hunit <;> split at hunit <;> norm_num at hunit <;> omega
  have hbits : x.toBits = y.toBits := by
    apply UInt64.toNat_inj.mp
    simp only [exponentField, fractionField, Nat.pow_eq] at hfield hfraction
    omega
  obtain ⟨⟨bits, hvalid⟩⟩ := x
  obtain ⟨⟨bits', hvalid'⟩⟩ := y
  obtain rfl : bits = bits' := hbits
  rfl

/-- What the parts of a finite number say. -/
theorem toRat_eq_parts (hx : x.isFinite = true) :
    toRat x = (if isNegative x then -1 else 1) * (significand x * 2 ^ exponent x) := by
  rw [toRat, (readAs_of_isFinite hx).quantity_eq, unit_unpackSign]
  rfl

theorem abs_toRat_le_largest (hx : x.isFinite = true) : |toRat x| ≤ largest :=
  abs_quantity_le_largest (small_of_isFinite hx)

theorem onGrid_toRat (x : Float) (hx : x.isFinite = true) : OnGrid (toRat x) :=
  (normalized_of_isFinite hx).onGrid

/-! ## Comparisons -/

theorem lt_iff (hx : x.isFinite = true) (hy : y.isFinite = true) : x < y ↔ toRat x < toRat y := by
  have hcompare := compare_eq (normalized_of_isFinite hx) (normalized_of_isFinite hy)
  have hlt : x < y ↔ (x.toModel.unpack.compare y.toModel.unpack == some .lt) = true :=
    decide_eq_true_iff
  rw [hlt, hcompare, beq_iff_eq, Option.some.injEq, compare_lt_iff_lt]
  rfl

theorem le_iff (hx : x.isFinite = true) (hy : y.isFinite = true) : x ≤ y ↔ toRat x ≤ toRat y := by
  have hcompare := compare_eq (normalized_of_isFinite hx) (normalized_of_isFinite hy)
  have hle : x ≤ y ↔ (x.toModel.unpack.compare y.toModel.unpack).any (·.isLE) = true :=
    decide_eq_true_iff
  rw [hle, hcompare, Option.any_some, Ordering.isLE_iff_ne_gt]
  exact compare_le_iff_le

theorem not_lt_iff (hx : x.isFinite = true) (hy : y.isFinite = true) :
    ¬ x < y ↔ toRat y ≤ toRat x := by
  rw [lt_iff hx hy, not_lt]

theorem compare_ne_eq {u v : UnpackedFloat} (hu : u.isFinite = false) (hv : v.isFinite = true) :
    u.compare v ≠ some .eq := by
  intro h
  cases u with
  | notANumber => cases h
  | infinity s => cases s <;> cases v <;> first | cases h | cases hv
  | zero s => cases hu
  | finite s m e hm => cases hu

/-- Only finite numbers are equal to a finite number. -/
theorem beq_iff (hy : y.isFinite = true) :
    (x == y) = true ↔ x.isFinite = true ∧ toRat x = toRat y := by
  have hbeq : (x == y) = (x.toModel.unpack.compare y.toModel.unpack == some .eq) := rfl
  rw [hbeq, beq_iff_eq]
  cases hx : x.isFinite with
  | true =>
      rw [compare_eq (normalized_of_isFinite hx) (normalized_of_isFinite hy), Option.some.injEq,
        compare_eq_iff_eq]
      simp [toRat]
  | false => simpa using compare_ne_eq hx hy

/-! ## Operations -/

/-- Changing the sign needs no rounding. -/
theorem toRat_neg (hx : x.isFinite = true) : (-x).isFinite = true ∧ toRat (-x) = -toRat x := by
  have hneg : (-x).toModel.unpack = x.toModel.unpack.neg :=
    unpack_pack (normalized_of_isFinite hx).neg (exponentAtMost_neg (small_of_isFinite hx))
  refine ⟨?_, ?_⟩
  · show (-x).toModel.unpack.isFinite = true
    rw [hneg, isFinite_neg]
    exact hx
  · rw [toRat, hneg, quantity_neg, toRat]

theorem isRounded_of_unpack {exact : ℚ} {u : UnpackedFloat}
    (hz : z.toModel.unpack =
      UnpackedFloat.unpack Format.binary64 (UnpackedFloat.pack Format.binary64 u))
    (hu : RoundsToEven exact (quantity u) ∧ Normalized u) (hsize : |exact| ≤ largest) :
    IsRounded exact z := by
  have hrange := exponentAtMost_of_rounds hu.2 hu.1.nearest.rounds hsize
  rw [unpack_pack hu.2 hrange] at hz
  refine ⟨?_, ?_⟩
  · show z.toModel.unpack.isFinite = true
    rw [hz]
    cases hrange <;> rfl
  · rw [toRat, hz]
    exact hu.1.nearest.rounds

/-- A finite result is the nearest one. -/
theorem roundsToEven_of_unpack {exact : ℚ} {u : UnpackedFloat}
    (hz : z.toModel.unpack =
      UnpackedFloat.unpack Format.binary64 (UnpackedFloat.pack Format.binary64 u))
    (hu : RoundsToEven exact (quantity u) ∧ Normalized u) (hfinite : z.isFinite = true) :
    RoundsToEven exact (toRat z) := by
  have hpacked : (UnpackedFloat.unpack Format.binary64
      (UnpackedFloat.pack Format.binary64 u)).isFinite = true := hz ▸ hfinite
  rw [toRat, hz, unpack_pack hu.2 (exponentAtMost_of_isFinite hu.2 hpacked)]
  exact hu.1

section Operations

variable (hx : x.isFinite = true) (hy : y.isFinite = true)

include hx hy

theorem roundsToEven_unpack_sub :
    RoundsToEven (toRat x - toRat y)
        (quantity (UnpackedFloat.sub Format.binary64 x.toModel.unpack y.toModel.unpack)) ∧
      Normalized (UnpackedFloat.sub Format.binary64 x.toModel.unpack y.toModel.unpack) := by
  have h := roundsToEven_add (normalized_of_isFinite hx) (normalized_of_isFinite hy).neg
  rwa [quantity_neg, ← sub_eq_add, ← sub_eq_add_neg] at h

theorem roundsToEven_float_add (hz : (x + y).isFinite = true) :
    RoundsToEven (toRat x + toRat y) (toRat (x + y)) :=
  roundsToEven_of_unpack rfl
    (roundsToEven_add (normalized_of_isFinite hx) (normalized_of_isFinite hy)) hz

theorem nearest_float_add (hz : (x + y).isFinite = true) :
    Nearest (toRat x + toRat y) (toRat (x + y)) :=
  (roundsToEven_float_add hx hy hz).nearest

theorem roundsToEven_float_sub (hz : (x - y).isFinite = true) :
    RoundsToEven (toRat x - toRat y) (toRat (x - y)) :=
  roundsToEven_of_unpack rfl (roundsToEven_unpack_sub hx hy) hz

theorem nearest_float_sub (hz : (x - y).isFinite = true) :
    Nearest (toRat x - toRat y) (toRat (x - y)) :=
  (roundsToEven_float_sub hx hy hz).nearest

theorem isRounded_add_of_le (hsize : |toRat x + toRat y| ≤ largest) :
    IsRounded (toRat x + toRat y) (x + y) :=
  isRounded_of_unpack rfl
    (roundsToEven_add (normalized_of_isFinite hx) (normalized_of_isFinite hy)) hsize

theorem isRounded_mul_of_le (hsize : |toRat x * toRat y| ≤ largest) :
    IsRounded (toRat x * toRat y) (x * y) :=
  isRounded_of_unpack rfl
    (roundsToEven_mul (normalized_of_isFinite hx) (normalized_of_isFinite hy)) hsize

theorem isRounded_add (hsize : |toRat x + toRat y| ≤ 2 ^ (1023 : ℤ)) :
    IsRounded (toRat x + toRat y) (x + y) :=
  isRounded_add_of_le hx hy (hsize.trans two_zpow_le_largest)

theorem isRounded_sub (hsize : |toRat x - toRat y| ≤ 2 ^ (1023 : ℤ)) :
    IsRounded (toRat x - toRat y) (x - y) :=
  isRounded_of_unpack rfl (roundsToEven_unpack_sub hx hy) (hsize.trans two_zpow_le_largest)

theorem isRounded_mul (hsize : |toRat x * toRat y| ≤ 2 ^ (1023 : ℤ)) :
    IsRounded (toRat x * toRat y) (x * y) :=
  isRounded_mul_of_le hx hy (hsize.trans two_zpow_le_largest)

/-- Where the exact sum is a number of the format, it is the sum. -/
theorem toRat_add_of_onGrid (hsize : |toRat x + toRat y| ≤ largest)
    (hgrid : OnGrid (toRat x + toRat y)) :
    (x + y).isFinite = true ∧ toRat (x + y) = toRat x + toRat y := by
  have h := isRounded_add_of_le hx hy hsize
  exact ⟨h.finite, h.rounds.eq_of_onGrid hgrid⟩

theorem toRat_mul_of_eq_one (h : toRat y = 1) :
    (x * y).isFinite = true ∧ toRat (x * y) = toRat x := by
  have hround := isRounded_mul_of_le hx hy
  rw [h, mul_one] at hround
  have hproduct := hround (abs_toRat_le_largest hx)
  exact ⟨hproduct.finite, hproduct.rounds.eq_of_onGrid (onGrid_toRat x hx)⟩

theorem toRat_mul_of_eq_zero (h : toRat x * toRat y = 0) :
    (x * y).isFinite = true ∧ toRat (x * y) = 0 := by
  have hround := isRounded_mul hx hy
  rw [h] at hround
  have hproduct := hround (by rw [abs_zero]; positivity)
  exact ⟨hproduct.finite, hproduct.rounds.eq_of_onGrid onGrid_zero⟩

end Operations

/-! ## Whole numbers -/

/-- A whole number that the format has stays what it is. -/
theorem IsRounded.toRat_eq {n : ℤ} (h : IsRounded n z) (hn : |n| ≤ 2 ^ 53) : toRat z = n :=
  h.rounds.eq_of_onGrid (onGrid_intCast hn)

theorem intCast_abs_le {n : ℤ} (hn : |n| ≤ 2 ^ 53) : |(n : ℚ)| ≤ 2 ^ (1023 : ℤ) := by
  have hcast : |(n : ℚ)| ≤ 2 ^ 53 := by exact_mod_cast hn
  refine hcast.trans ?_
  rw [← zpow_natCast]
  exact zpow_le_zpow_right₀ one_le_two (by decide)

theorem toRat_toFloat {n : UInt64} (hn : n.toNat ≤ 2 ^ 53) :
    n.toFloat.isFinite = true ∧ toRat n.toFloat = n.toNat := by
  have hn' : |(n.toNat : ℤ)| ≤ 2 ^ 53 := by rw [Nat.abs_cast]; exact_mod_cast hn
  have h : IsRounded ((n.toNat : ℤ) * 2 ^ (0 : ℤ)) n.toFloat :=
    isRounded_of_unpack rfl (roundsToEven_normalize n.toNat 0 .positive)
      (by simpa using (intCast_abs_le hn').trans two_zpow_le_largest)
  rw [zpow_zero, mul_one] at h
  exact ⟨h.finite, by simpa using h.toRat_eq hn'⟩

theorem toRat_ofNat {n : ℕ} (hn : n < 2 ^ 53) :
    (Float.ofNat n).isFinite = true ∧ toRat (Float.ofNat n) = n := by
  have hword : n.toUInt64.toNat = n := by
    rw [Nat.toUInt64, UInt64.toNat_ofNat', Nat.mod_eq_of_lt (by omega)]
  have hfloat := toRat_toFloat (n := n.toUInt64) (by omega)
  have hone : (Float.ofBits 0x3FF0000000000000).isFinite = true ∧
      toRat (Float.ofBits 0x3FF0000000000000) = 1 := by
    decide +kernel
  have hn' : |(n : ℤ)| ≤ 2 ^ 53 := by rw [Nat.abs_cast]; exact_mod_cast hn.le
  have hproduct := isRounded_mul hfloat.1 hone.1
  rw [hfloat.2, hone.2, mul_one, hword] at hproduct
  have h : IsRounded (n : ℤ) (n.toUInt64.toFloat * Float.ofBits 0x3FF0000000000000) :=
    hproduct (by simpa using intCast_abs_le hn')
  have hofNat : Float.ofNat n = n.toUInt64.toFloat * Float.ofBits 0x3FF0000000000000 := by
    show Float.ofScientific n false 0 = _
    rw [Float.ofScientific, dif_pos ⟨hn, by decide⟩]
    rfl
  rw [hofNat]
  exact ⟨h.finite, by simpa using h.toRat_eq hn'⟩

/-! ## Integral parts -/

theorem significand_lt (x : Float) : significand x < 2 ^ 53 := by
  have hfraction := fractionField_lt x
  have hpow : Nat.pow 2 52 = 2 ^ 52 := rfl
  rw [significand]
  split <;> omega

/-- Rounding toward zero forgets about the sign. -/
theorem towardZero_sign_mul {r : ℚ} (hr : 0 ≤ r) (negative : Bool) :
    Scalar.towardZero ((if negative then -1 else 1) * r) =
      (if negative then -1 else 1) * (⌊r⌋ : ℚ) := by
  cases negative with
  | false => simp [Scalar.towardZero, not_lt.mpr hr]
  | true =>
      rcases hr.eq_or_lt with rfl | hpos
      · simp [Scalar.towardZero]
      · simp [Scalar.towardZero, hpos, Int.ceil_neg]

theorem toRat_ofInteger (negative : Bool) {n : ℕ} (hn : n < 2 ^ 53) :
    (ofInteger negative n).isFinite = true ∧
      toRat (ofInteger negative n) = (if negative then -1 else 1) * n := by
  obtain ⟨hfinite, hn⟩ := toRat_ofNat hn
  cases negative with
  | false => simpa [ofInteger, hn] using hfinite
  | true =>
      obtain ⟨hfinite', hneg⟩ := toRat_neg hfinite
      simpa [ofInteger, hneg, hn] using hfinite'

/-- The integral part is exact. -/
theorem toRat_trunc (hx : x.isFinite = true) :
    (trunc x).isFinite = true ∧ toRat (trunc x) = Scalar.towardZero (toRat x) := by
  rw [toRat_eq_parts hx, towardZero_sign_mul (by positivity), trunc]
  by_cases hexponent : exponent x < 0
  · obtain ⟨k, hk⟩ : ∃ k : ℕ, exponent x = -k := ⟨(-exponent x).toNat, by omega⟩
    have hfloor : ⌊(significand x * 2 ^ exponent x : ℚ)⌋ = (significand x / 2 ^ k : ℕ) := by
      rw [hk, zpow_neg, zpow_natCast, ← div_eq_mul_inv]
      exact_mod_cast Rat.floor_natCast_div_natCast (significand x) (2 ^ k)
    have hlt : significand x / 2 ^ k < 2 ^ 53 :=
      (Nat.div_le_self _ _).trans_lt (significand_lt x)
    obtain ⟨hfinite, hvalue⟩ := toRat_ofInteger (isNegative x) hlt
    have hk' : (-exponent x).toNat = k := by omega
    rw [if_pos (by simp [hx, hexponent]), hk', hfloor]
    exact ⟨hfinite, hvalue⟩
  · obtain ⟨k, hk⟩ : ∃ k : ℕ, exponent x = k := ⟨(exponent x).toNat, by omega⟩
    have hfloor : ⌊(significand x * 2 ^ exponent x : ℚ)⌋ = (significand x * 2 ^ k : ℕ) := by
      rw [hk, zpow_natCast]
      exact_mod_cast Int.floor_natCast (significand x * 2 ^ k)
    rw [if_neg (by simp [hexponent]), hfloor, toRat_eq_parts hx, hk]
    refine ⟨hx, ?_⟩
    push_cast
    rfl

/-! ## Literals -/

theorem literals :
    ((0.0 : Float).isFinite = true ∧ toRat 0.0 = 0) ∧
    ((0.5 : Float).isFinite = true ∧ toRat 0.5 = 1 / 2) ∧
    ((1.0 : Float).isFinite = true ∧ toRat 1.0 = 1) ∧
    ((2.0 : Float).isFinite = true ∧ toRat 2.0 = 2) := by
  decide +kernel

theorem zero_eq : (0.0 : Float).isFinite = true ∧ toRat 0.0 = 0 := literals.1

theorem half_eq : (0.5 : Float).isFinite = true ∧ toRat 0.5 = 1 / 2 := literals.2.1

theorem one_eq : (1.0 : Float).isFinite = true ∧ toRat 1.0 = 1 := literals.2.2.1

theorem two_eq : (2.0 : Float).isFinite = true ∧ toRat 2.0 = 2 := literals.2.2.2

theorem lt_zero_iff (hx : x.isFinite = true) : x < 0.0 ↔ toRat x < 0 := by
  rw [lt_iff hx zero_eq.1, zero_eq.2]

theorem lt_one_iff (hx : x.isFinite = true) : x < 1.0 ↔ toRat x < 1 := by
  rw [lt_iff hx one_eq.1, one_eq.2]

theorem one_lt_iff (hx : x.isFinite = true) : 1.0 < x ↔ 1 < toRat x := by
  rw [lt_iff one_eq.1 hx, one_eq.2]

theorem not_lt_zero_iff (hx : x.isFinite = true) : ¬ x < 0.0 ↔ 0 ≤ toRat x := by
  rw [lt_zero_iff hx, not_lt]

theorem not_lt_one_iff (hx : x.isFinite = true) : ¬ x < 1.0 ↔ 1 ≤ toRat x := by
  rw [lt_one_iff hx, not_lt]

theorem not_one_lt_iff (hx : x.isFinite = true) : ¬ 1.0 < x ↔ toRat x ≤ 1 := by
  rw [one_lt_iff hx, not_lt]

/-! ## Differences

All numbers are multiples of the least one, so the difference of two numbers is not rounded to zero
unless it is zero. -/

theorem exists_multiple (hx : x.isFinite = true) : ∃ n : ℤ, toRat x = n * 2 ^ (-1074 : ℤ) := by
  rw [toRat]
  generalize hu : x.toModel.unpack = u
  cases hu ▸ normalized_of_isFinite hx with
  | zero s => exact ⟨0, by simp⟩
  | @finite s m e hm hlt hleast hlong =>
      exact ⟨_, quantity_decreaseExponent s hm hleast⟩

/-- What is not smaller than the least number is not rounded to zero. -/
theorem Rounds.ne_zero {r r' : ℚ} (h : Rounds r r') (hr : 2 ^ (-1074 : ℤ) ≤ |r|) : r' ≠ 0 := by
  have hpos : (0 : ℚ) < 2 ^ (-1074 : ℤ) := by positivity
  have hgrid : OnGrid (2 ^ (-1074 : ℤ)) := onGrid_two_zpow le_rfl
  rcases le_abs.mp hr with hr | hr
  · exact (hpos.trans_le (h.below _ hgrid hr)).ne'
  · have hneg := h.above _ hgrid.neg (le_neg.mpr hr)
    exact (hneg.trans_lt (neg_lt_zero.mpr hpos)).ne

theorem Rounds.ne_zero_of_multiple {r r' : ℚ} (h : Rounds r r') {n : ℤ}
    (hn : r = n * 2 ^ (-1074 : ℤ)) (hr : r ≠ 0) : r' ≠ 0 := by
  refine h.ne_zero ?_
  have hne : n ≠ 0 := by
    rintro rfl
    exact hr (by rw [hn, Int.cast_zero, zero_mul])
  have hone : (1 : ℚ) ≤ |(n : ℚ)| := by exact_mod_cast Int.one_le_abs hne
  have hpos : (0 : ℚ) < 2 ^ (-1074 : ℤ) := by positivity
  rw [hn, abs_mul, abs_of_pos hpos]
  exact le_mul_of_one_le_left hpos.le hone

theorem exists_multiple_sub (hx : x.isFinite = true) (hy : y.isFinite = true) :
    ∃ n : ℤ, toRat x - toRat y = n * 2 ^ (-1074 : ℤ) := by
  obtain ⟨n, hn⟩ := exists_multiple hx
  obtain ⟨n', hn'⟩ := exists_multiple hy
  exact ⟨n - n', by rw [hn, hn', Int.cast_sub, sub_mul]⟩

theorem toRat_sub_ne_zero (hx : x.isFinite = true) (hy : y.isFinite = true)
    (h : toRat x ≠ toRat y) (hsize : |toRat x - toRat y| ≤ 2 ^ (1023 : ℤ)) :
    toRat (x - y) ≠ 0 := by
  obtain ⟨n, hn⟩ := exists_multiple_sub hx hy
  exact (isRounded_sub hx hy hsize).rounds.ne_zero_of_multiple hn (sub_ne_zero.mpr h)

/-- The error of a difference is small against it. -/
theorem abs_toRat_sub_sub_le (hx : x.isFinite = true) (hy : y.isFinite = true)
    (hz : (x - y).isFinite = true) :
    |toRat (x - y) - (toRat x - toRat y)| ≤ 2 ^ (-53 : ℤ) * |toRat x - toRat y| := by
  obtain ⟨n, hn⟩ := exists_multiple_sub hx hy
  exact (nearest_float_sub hx hy hz).abs_sub_le_mul_abs hn

/-! ## Bounds

Bounds of exact results are bounds of rounded ones, where they are numbers of the format. -/

/-- The number is finite, and it is not outside the range between two whole numbers. -/
structure Between (a b : ℤ) (x : Float) : Prop where
  finite : x.isFinite = true
  lower : a ≤ toRat x
  upper : toRat x ≤ b

/-- The number is finite, and its size is at most a power of two. -/
structure Bounded (k : ℕ) (x : Float) : Prop where
  finite : x.isFinite = true
  size : |toRat x| ≤ 2 ^ k

instance (k : ℕ) (x : Float) : Decidable (Bounded k x) :=
  decidable_of_iff (x.isFinite = true ∧ |toRat x| ≤ 2 ^ k)
    ⟨fun h => ⟨h.1, h.2⟩, fun h => ⟨h.finite, h.size⟩⟩

section Between

variable {a b : ℤ}

theorem between_zero_one (hx : x.isFinite = true) (hlow : 0 ≤ toRat x) (hhigh : toRat x ≤ 1) :
    Between 0 1 x :=
  ⟨hx, by simpa using hlow, by simpa using hhigh⟩

theorem Between.nonneg (h : Between 0 b x) : 0 ≤ toRat x := by simpa using h.lower

theorem Between.le_one (h : Between a 1 x) : toRat x ≤ 1 := by simpa using h.upper

theorem abs_le_of_between {r : ℚ} (ha : |a| ≤ 2 ^ 53) (hb : |b| ≤ 2 ^ 53) (hlow : a ≤ r)
    (hhigh : r ≤ b) : |r| ≤ 2 ^ (1023 : ℤ) :=
  abs_le.mpr ⟨(abs_le.mp (intCast_abs_le ha)).1.trans hlow,
    hhigh.trans (abs_le.mp (intCast_abs_le hb)).2⟩

theorem IsRounded.between {r : ℚ} (h : IsRounded r x) (ha : |a| ≤ 2 ^ 53) (hb : |b| ≤ 2 ^ 53)
    (hlow : a ≤ r) (hhigh : r ≤ b) : Between a b x :=
  ⟨h.finite, h.rounds.below a (onGrid_intCast ha) hlow, h.rounds.above b (onGrid_intCast hb) hhigh⟩

variable (ha : |a| ≤ 2 ^ 53) (hb : |b| ≤ 2 ^ 53) (hx : x.isFinite = true) (hy : y.isFinite = true)

include ha hb hx hy

theorem between_add (hlow : a ≤ toRat x + toRat y) (hhigh : toRat x + toRat y ≤ b) :
    Between a b (x + y) :=
  (isRounded_add hx hy (abs_le_of_between ha hb hlow hhigh)).between ha hb hlow hhigh

theorem between_sub (hlow : a ≤ toRat x - toRat y) (hhigh : toRat x - toRat y ≤ b) :
    Between a b (x - y) :=
  (isRounded_sub hx hy (abs_le_of_between ha hb hlow hhigh)).between ha hb hlow hhigh

theorem between_mul (hlow : a ≤ toRat x * toRat y) (hhigh : toRat x * toRat y ≤ b) :
    Between a b (x * y) :=
  (isRounded_mul hx hy (abs_le_of_between ha hb hlow hhigh)).between ha hb hlow hhigh

end Between

namespace Bounded

variable {j k : ℕ}

theorem of_isRounded {r : ℚ} (h : IsRounded r x) (hr : |r| ≤ 2 ^ k) : Bounded k x := by
  refine ⟨h.finite, h.rounds.abs_le_of_onGrid ?_ hr⟩
  have hgrid := onGrid_two_zpow (k := k) (by omega)
  rwa [zpow_natCast] at hgrid

theorem abs_le_of_le {r : ℚ} (hr : |r| ≤ 2 ^ k) (hk : k ≤ 1023) : |r| ≤ 2 ^ (1023 : ℤ) := by
  refine hr.trans ?_
  rw [← zpow_natCast]
  exact zpow_le_zpow_right₀ one_le_two (by exact_mod_cast hk)

theorem mono (h : Bounded j x) (hjk : j ≤ k) : Bounded k x :=
  ⟨h.finite, h.size.trans (pow_le_pow_right₀ one_le_two hjk)⟩

theorem neg (h : Bounded k x) : Bounded k (-x) := by
  obtain ⟨hfinite, hneg⟩ := toRat_neg h.finite
  exact ⟨hfinite, by rw [hneg, abs_neg]; exact h.size⟩

theorem mul (hx : Bounded j x) (hy : Bounded k y) (hjk : j + k ≤ 1023) :
    Bounded (j + k) (x * y) := by
  have hsize : |toRat x * toRat y| ≤ 2 ^ (j + k) := by
    rw [abs_mul, pow_add]
    exact mul_le_mul hx.size hy.size (abs_nonneg _) (by positivity)
  exact of_isRounded (isRounded_mul hx.finite hy.finite (abs_le_of_le hsize hjk)) hsize

theorem size_add_le {p q : ℚ} (hp : |p| ≤ 2 ^ j) (hq : |q| ≤ 2 ^ k) :
    |p + q| ≤ 2 ^ (max j k + 1) := by
  have hp' : |p| ≤ 2 ^ max j k := hp.trans (pow_le_pow_right₀ one_le_two (le_max_left j k))
  have hq' : |q| ≤ 2 ^ max j k := hq.trans (pow_le_pow_right₀ one_le_two (le_max_right j k))
  calc |p + q| ≤ |p| + |q| := abs_add_le p q
    _ ≤ 2 ^ max j k + 2 ^ max j k := add_le_add hp' hq'
    _ = 2 ^ (max j k + 1) := by ring

theorem add (hx : Bounded j x) (hy : Bounded k y) (hjk : max j k < 1023) :
    Bounded (max j k + 1) (x + y) := by
  have hsize := size_add_le hx.size hy.size
  exact of_isRounded (isRounded_add hx.finite hy.finite (abs_le_of_le hsize hjk)) hsize

theorem sub (hx : Bounded j x) (hy : Bounded k y) (hjk : max j k < 1023) :
    Bounded (max j k + 1) (x - y) := by
  have hsize : |toRat x - toRat y| ≤ 2 ^ (max j k + 1) := by
    rw [sub_eq_add_neg]
    exact size_add_le hx.size (by rw [abs_neg]; exact hy.size)
  exact of_isRounded (isRounded_sub hx.finite hy.finite (abs_le_of_le hsize hjk)) hsize

end Bounded

/-! ## Results that are no numbers -/

section Undefined

variable {u v : UnpackedFloat}

theorem isNaN_roundWithAccuracy (s : Sign) (m : ℕ) (e : ℤ) (accuracy : Accuracy) :
    (roundWithAccuracy Format.binary64 s m e accuracy).isNaN = false := by
  simp only [roundWithAccuracy]
  split <;> rfl

theorem isNaN_normalize (n e : ℤ) (zeroSign : Sign) :
    (UnpackedFloat.normalize Format.binary64 n e zeroSign).isNaN = false := by
  rw [UnpackedFloat.normalize]
  split
  · exact isNaN_roundWithAccuracy _ _ _ _
  · rfl
  · exact isNaN_roundWithAccuracy _ _ _ _

theorem Small.isNaN {k : Int} (h : Small k u) : u.isNaN = false := by
  cases h <;> rfl

theorem isNaN_of_isInf (h : u.isInf = true) : u.isNaN = false := by
  cases u <;> first | rfl | cases h

theorem isNaN_unpack_pack (u : UnpackedFloat) :
    (UnpackedFloat.unpack Format.binary64 (UnpackedFloat.pack Format.binary64 u)).isNaN =
      u.isNaN := by
  cases hu : u.isNaN with
  | true =>
      obtain rfl : u = .notANumber := UnpackedFloat.isNaN_iff.mp hu
      exact congrArg UnpackedFloat.isNaN unpack_packedNaN
  | false =>
      have hnot : u ≠ .notANumber := by
        rintro rfl
        cases hu
      cases hinf : (UnpackedFloat.unpack Format.binary64
          (UnpackedFloat.pack Format.binary64 u)).isInf with
      | false => exact (small_of_not_isInf hnot hinf).isNaN
      | true => exact isNaN_of_isInf hinf

/-- A sum is a number if its terms are, and one of them is finite. -/
theorem isNaN_add (hu : u.isNaN = false) (hv : v.isNaN = false)
    (h : u.isFinite = true ∨ v.isFinite = true) :
    (UnpackedFloat.add Format.binary64 u v).isNaN = false := by
  cases u with
  | notANumber => cases hu
  | infinity s =>
      cases v with
      | notANumber => cases hv
      | infinity s' => exact h.elim nofun nofun
      | zero s' => rfl
      | finite s' m' e' hm' => rfl
  | zero s =>
      cases v with
      | notANumber => cases hv
      | infinity s' => rfl
      | zero s' =>
          simp only [UnpackedFloat.add]
          split <;> rfl
      | finite s' m' e' hm' => rfl
  | finite s m e hm =>
      cases v with
      | notANumber => cases hv
      | infinity s' => rfl
      | zero s' => rfl
      | finite s' m' e' hm' => exact isNaN_normalize _ _ _

/-- A product of numbers is a number, unless it is zero times infinity. -/
theorem isNaN_mul_iff (hu : u.isNaN = false) (hv : v.isNaN = false) :
    (UnpackedFloat.mul Format.binary64 u v).isNaN = true ↔
      (u.isFinite = true ∧ quantity u = 0 ∧ v.isFinite = false) ∨
        (u.isFinite = false ∧ v.isFinite = true ∧ quantity v = 0) := by
  cases u with
  | notANumber => cases hu
  | finite s m e hm =>
      cases v with
      | notANumber => cases hv
      | finite s' m' e' hm' =>
          have hround : (UnpackedFloat.mul Format.binary64 (.finite s m e hm)
              (.finite s' m' e' hm')).isNaN = false := isNaN_roundWithAccuracy _ _ _ _
          simp [hround, UnpackedFloat.isFinite]
      | _ =>
          simp [UnpackedFloat.mul, UnpackedFloat.isNaN, UnpackedFloat.isFinite,
            quantity_finite_ne_zero]
  | _ =>
      cases v with
      | notANumber => cases hv
      | _ =>
          simp [UnpackedFloat.mul, UnpackedFloat.isNaN, UnpackedFloat.isFinite,
            quantity_finite_ne_zero]

theorem isNaN_div (hu : u.isNaN = false) {j : ℤ} (hv : ExponentAtLeast j v) :
    (UnpackedFloat.div Format.binary64 u v).isNaN = false := by
  obtain ⟨s', hm', -⟩ := hv
  cases u with
  | notANumber => cases hu
  | infinity s => rfl
  | zero s => rfl
  | finite s m e hm => exact isNaN_roundWithAccuracy _ _ _ _

theorem isNaN_neg (u : UnpackedFloat) : u.neg.isNaN = u.isNaN := by
  cases u <;> rfl

theorem isNaN_sqrt (hu : u.isFinite = true) :
    (UnpackedFloat.sqrt Format.binary64 u).isNaN = true ↔ quantity u < 0 := by
  cases u with
  | zero s => simp [UnpackedFloat.sqrt, UnpackedFloat.isNaN]
  | finite s m e hm =>
      cases s with
      | positive =>
          have hpos := quantity_finite_pos (e := e) hm
          have hnot : (UnpackedFloat.sqrt Format.binary64 (.finite .positive m e hm)).isNaN =
              false := isNaN_roundWithAccuracy _ _ _ _
          simp [hnot, hpos.le]
      | negative =>
          have hneg := quantity_finite_neg (e := e) hm
          simp [UnpackedFloat.sqrt, UnpackedFloat.isNaN, hneg]
  | infinity s => cases hu
  | notANumber => cases hu

theorem Normalized.exponentAtLeast (hu : Normalized u) (h : quantity u ≠ 0) :
    ExponentAtLeast (-1074) u := by
  cases hu with
  | zero s => exact absurd rfl h
  | finite s hm hlt hleast hlong => exact .finite s hm hleast

end Undefined

theorem isNaN_of_isFinite (hx : x.isFinite = true) : x.isNaN = false :=
  (small_of_isFinite hx).isNaN

theorem isNaN_float_add (hx : x.isNaN = false) (hy : y.isNaN = false)
    (h : x.isFinite = true ∨ y.isFinite = true) : (x + y).isNaN = false :=
  (isNaN_unpack_pack _).trans (isNaN_add hx hy h)

theorem isNaN_float_sub (hx : x.isNaN = false) (hy : y.isNaN = false)
    (h : x.isFinite = true ∨ y.isFinite = true) : (x - y).isNaN = false := by
  refine (isNaN_unpack_pack _).trans ?_
  rw [sub_eq_add]
  exact isNaN_add hx ((isNaN_neg _).trans hy) (h.imp_right (isFinite_neg _).trans)

theorem isNaN_float_sub_right (x : Float) (hy : y.isNaN = true) : (x - y).isNaN = true := by
  refine (isNaN_unpack_pack _).trans ?_
  rw [UnpackedFloat.isNaN_iff.mp hy]
  cases x.toModel.unpack <;> rfl

theorem isNaN_float_mul_iff (hx : x.isNaN = false) (hy : y.isNaN = false) :
    (x * y).isNaN = true ↔
      (x.isFinite = true ∧ toRat x = 0 ∧ y.isFinite = false) ∨
        (x.isFinite = false ∧ y.isFinite = true ∧ toRat y = 0) :=
  Iff.trans (iff_of_eq (congrArg (· = true) (isNaN_unpack_pack _))) (isNaN_mul_iff hx hy)

theorem isNaN_float_mul (hx : x.isNaN = false) (hy : y.isFinite = true) (h : toRat y ≠ 0) :
    (x * y).isNaN = false ∧ (y * x).isNaN = false := by
  have hy' := isNaN_of_isFinite hy
  constructor
  · rw [← Bool.not_eq_true, isNaN_float_mul_iff hx hy']
    simp [hy, h]
  · rw [← Bool.not_eq_true, isNaN_float_mul_iff hy' hx]
    simp [hy, h]

theorem isNaN_float_div (hx : x.isNaN = false) (hy : y.isFinite = true) (h : toRat y ≠ 0) :
    (x / y).isNaN = false :=
  (isNaN_unpack_pack _).trans (isNaN_div hx ((normalized_of_isFinite hy).exponentAtLeast h))

theorem isNaN_float_neg (hx : x.isNaN = false) : (-x).isNaN = false :=
  (isNaN_unpack_pack _).trans ((isNaN_neg _).trans hx)

theorem isNaN_float_add_right (x : Float) (hy : y.isNaN = true) : (x + y).isNaN = true := by
  refine (isNaN_unpack_pack _).trans ?_
  rw [UnpackedFloat.isNaN_iff.mp hy]
  cases x.toModel.unpack <;> rfl

/-- There are square roots of all numbers that are not negative. -/
theorem isNaN_float_sqrt (hx : x.isFinite = true) : x.sqrt.isNaN = true ↔ toRat x < 0 :=
  Iff.trans (iff_of_eq (congrArg (· = true) (isNaN_unpack_pack _))) (isNaN_sqrt hx)

/-! ## Results that are not finite -/

theorem isFinite_unpack_pack {u : UnpackedFloat} (h : u.isFinite = false) :
    (UnpackedFloat.unpack Format.binary64 (UnpackedFloat.pack Format.binary64 u)).isFinite =
      false := by
  cases u with
  | infinity s => exact congrArg UnpackedFloat.isFinite (unpack_packedInfinity s)
  | notANumber => exact congrArg UnpackedFloat.isFinite unpack_packedNaN
  | zero s => cases h
  | finite s m e hm => cases h

theorem isFinite_float_mul (hx : x.isFinite = false) (y : Float) : (x * y).isFinite = false := by
  refine isFinite_unpack_pack ?_
  replace hx : x.toModel.unpack.isFinite = false := hx
  generalize x.toModel.unpack = u at hx ⊢
  generalize y.toModel.unpack = v
  cases u <;> cases v <;> first | rfl | cases hx

theorem isFinite_float_add_right (x : Float) (hy : y.isFinite = false) :
    (x + y).isFinite = false := by
  refine isFinite_unpack_pack ?_
  replace hy : y.toModel.unpack.isFinite = false := hy
  generalize x.toModel.unpack = u
  generalize y.toModel.unpack = v at hy ⊢
  cases v with
  | infinity s =>
      cases u with
      | infinity s' =>
          simp only [UnpackedFloat.add]
          split <;> rfl
      | _ => rfl
  | notANumber => cases u <;> rfl
  | zero s => cases hy
  | finite s m e hm => cases hy

theorem isNaN_float_mul_left (hx : x.isNaN = true) (y : Float) : (x * y).isNaN = true := by
  refine (isNaN_unpack_pack _).trans ?_
  rw [UnpackedFloat.isNaN_iff.mp hx]
  rfl

theorem isNaN_float_mul_right (x : Float) (hy : y.isNaN = true) : (x * y).isNaN = true := by
  refine (isNaN_unpack_pack _).trans ?_
  rw [UnpackedFloat.isNaN_iff.mp hy]
  cases x.toModel.unpack <;> rfl

/-- Zero times infinity is no number. -/
theorem isNaN_float_mul_of_eq_zero (hx : x.isFinite = false) (hy : y.isFinite = true)
    (h : toRat y = 0) : (x * y).isNaN = true := by
  cases hx' : x.isNaN with
  | false => exact (isNaN_float_mul_iff hx' (isNaN_of_isFinite hy)).mpr (.inr ⟨hx, hy, h⟩)
  | true => exact isNaN_float_mul_left hx' y

end Binary64

end Inbetween
