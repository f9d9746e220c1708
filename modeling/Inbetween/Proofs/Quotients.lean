import Inbetween.Proofs.Rationals

/-!
# Quotients and remainders

A quotient of binary64 numbers is the exact one, rounded, unless it is out of range. A remainder
needs no rounding at all, and neither do a size and a change of the sign.
-/

namespace Inbetween

namespace Binary64

open Float.Model Float.Model.UnpackedFloat

/-! ## Signs -/

section Unpacked

variable {u : UnpackedFloat}

theorem neg_neg_unpacked (u : UnpackedFloat) : u.neg.neg = u := by
  have hsign : ∀ s : Sign, -(-s) = s := fun s => by cases s <;> rfl
  cases u <;> simp [UnpackedFloat.neg, hsign]

theorem eq_zero_of_quantity_eq_zero (hu : u.isFinite = true) (h : quantity u = 0) :
    ∃ s, u = .zero s := by
  cases u with
  | zero s => exact ⟨s, rfl⟩
  | finite s m e hm => exact absurd h (quantity_finite_ne_zero s hm)
  | _ => cases hu

theorem Normalized.abs (hu : Normalized u) : Normalized u.abs := by
  cases hu with
  | zero => exact .zero _
  | finite s hm hlt hleast hlong => exact .finite _ hm hlt hleast hlong

theorem exponentAtMost_abs {k : Int} (hu : Small k u) : ExponentAtMost k u.abs := by
  cases hu with
  | zero => exact .zero _
  | finite s hm hlt he => exact .finite _ hm he

theorem isFinite_abs (u : UnpackedFloat) : u.abs.isFinite = u.isFinite := by
  cases u <;> rfl

theorem quantity_abs (u : UnpackedFloat) : quantity u.abs = |quantity u| := by
  cases u with
  | finite s m e hm =>
      rw [abs_quantity_finite]
      simp [UnpackedFloat.abs, quantity, unit]
  | _ => simp [UnpackedFloat.abs, quantity]

end Unpacked

variable {x y z : Float}

theorem unpack_neg (hx : x.isFinite = true) : (-x).toModel.unpack = x.toModel.unpack.neg :=
  unpack_pack (normalized_of_isFinite hx).neg (exponentAtMost_neg (small_of_isFinite hx))

theorem float_neg_neg (hx : x.isFinite = true) : -(-x) = x := by
  have hneg := (toRat_neg hx).1
  apply eq_of_unpack_eq (toRat_neg hneg).1
  rw [unpack_neg hneg, unpack_neg hx, neg_neg_unpacked]

/-- There are two zeros. -/
theorem eq_zero_or_eq_neg_zero (hx : x.isFinite = true) (h : toRat x = 0) :
    x = 0.0 ∨ x = -0.0 := by
  obtain ⟨s, hs⟩ := eq_zero_of_quantity_eq_zero (u := x.toModel.unpack) hx h
  obtain ⟨s₀, hs₀⟩ :=
    eq_zero_of_quantity_eq_zero (u := (0.0 : Float).toModel.unpack) zero_eq.1 zero_eq.2
  have hneg := unpack_neg zero_eq.1
  rw [hs₀] at hneg
  have hsigns : s = s₀ ∨ s = -s₀ := by
    cases s <;> cases s₀ <;> first | exact .inl rfl | exact .inr rfl
  rcases hsigns with rfl | rfl
  · exact .inl (eq_of_unpack_eq hx (hs.trans hs₀.symm))
  · exact .inr (eq_of_unpack_eq hx (hs.trans hneg.symm))

theorem toRat_abs (hx : x.isFinite = true) : x.abs.isFinite = true ∧ toRat x.abs = |toRat x| := by
  have habs : x.abs.toModel.unpack = x.toModel.unpack.abs :=
    unpack_pack (normalized_of_isFinite hx).abs (exponentAtMost_abs (small_of_isFinite hx))
  constructor
  · show x.abs.toModel.unpack.isFinite = true
    rw [habs, isFinite_abs]
    exact hx
  · rw [toRat, habs, quantity_abs, toRat]

/-! ## Differences -/

section Differences

variable (hx : x.isFinite = true) (hy : y.isFinite = true)

include hx hy

/-- Where the exact difference is a number of the format, it is the difference. -/
theorem toRat_sub_of_onGrid (hsize : |toRat x - toRat y| ≤ largest)
    (hgrid : OnGrid (toRat x - toRat y)) :
    (x - y).isFinite = true ∧ toRat (x - y) = toRat x - toRat y := by
  have h : IsRounded (toRat x - toRat y) (x - y) :=
    isRounded_of_unpack rfl (roundsToEven_unpack_sub hx hy) hsize
  exact ⟨h.finite, h.rounds.eq_of_onGrid hgrid⟩

/-- A small difference needs no rounding. -/
theorem toRat_sub_of_small (h : |toRat x - toRat y| ≤ 2 ^ (-1021 : ℤ)) :
    (x - y).isFinite = true ∧ toRat (x - y) = toRat x - toRat y := by
  obtain ⟨n, hn⟩ := exists_multiple_sub hx hy
  have hpos : (0 : ℚ) < 2 ^ (-1074 : ℤ) := by positivity
  have hcount : |(n : ℚ)| ≤ 2 ^ 53 := by
    rw [hn, abs_mul, abs_of_pos hpos] at h
    refine le_of_mul_le_mul_right (h.trans_eq ?_) hpos
    rw [← zpow_natCast, ← zpow_add₀ two_ne_zero]
    rfl
  have hsize : |toRat x - toRat y| ≤ largest :=
    h.trans ((zpow_le_zpow_right₀ one_le_two (by decide)).trans two_zpow_le_largest)
  exact toRat_sub_of_onGrid hx hy hsize ⟨n, -1074, by exact_mod_cast hcount, le_rfl, hn⟩

theorem toRat_sub_nonneg (hz : (x - y).isFinite = true) (h : toRat y ≤ toRat x) :
    0 ≤ toRat (x - y) :=
  (nearest_float_sub hx hy hz).rounds.below 0 onGrid_zero (sub_nonneg.mpr h)

theorem toRat_sub_eq_zero_iff :
    ((x - y).isFinite = true ∧ toRat (x - y) = 0) ↔ toRat x = toRat y := by
  constructor
  · rintro ⟨hfinite, hzero⟩
    by_contra hne
    obtain ⟨n, hn⟩ := exists_multiple_sub hx hy
    exact (nearest_float_sub hx hy hfinite).rounds.ne_zero_of_multiple hn (sub_ne_zero.mpr hne)
      hzero
  · intro h
    have hzero : toRat x - toRat y = 0 := sub_eq_zero.mpr h
    obtain ⟨hfinite, hexact⟩ := toRat_sub_of_small hx hy (by rw [hzero, abs_zero]; positivity)
    exact ⟨hfinite, hexact.trans hzero⟩

end Differences

/-! ## Sums out of range -/

/-- What is not packed as a finite number is larger than all of them, and becomes infinite. -/
theorem overflow_of_not_isFinite {u : UnpackedFloat} (hu : Normalized u)
    (h : (UnpackedFloat.unpack Format.binary64
      (UnpackedFloat.pack Format.binary64 u)).isFinite = false) :
    largest < |quantity u| ∧ ∃ s, 0 ≤ unit s * quantity u ∧
      UnpackedFloat.unpack Format.binary64 (UnpackedFloat.pack Format.binary64 u) =
        .infinity s := by
  have hrange : ¬ |quantity u| ≤ largest := by
    intro hle
    have hpacked := unpack_pack hu
      (exponentAtMost_of_rounds hu (Nearest.refl (quantity u)).rounds hle)
    rw [hpacked] at h
    cases hu <;> cases h
  refine ⟨not_le.mp hrange, ?_⟩
  cases hu with
  | zero s =>
      rw [quantity_zero, abs_zero] at hrange
      exact absurd (le_trans (by positivity) two_zpow_le_largest) hrange
  | @finite s m e hm hlt hleast hlong =>
      have hexponent : 971 < e := by
        by_contra hle
        have hsmall : Small 971 (.finite s m e hm) := .finite s hm hlt (not_lt.mp hle)
        exact hrange (abs_quantity_le_largest hsmall)
      have hpos : (0 : ℚ) ≤ m * 2 ^ e := by positivity
      refine ⟨s, ?_, ?_⟩
      · cases s <;> simpa [quantity, unit] using hpos
      · rw [pack_finite, if_pos (by omega), unpack_packedInfinity]

/-- A sum is not below a term if the other one is not negative, even if it is out of range. -/
theorem float_le_add (hx : x.isFinite = true) (hy : y.isFinite = true) (h : 0 ≤ toRat y) :
    x ≤ x + y := by
  obtain ⟨hsum, hnormal⟩ := roundsToEven_add (normalized_of_isFinite hx) (normalized_of_isFinite hy)
  have hbelow := hsum.nearest.rounds.below _ (onGrid_toRat x hx) (le_add_of_nonneg_right h)
  cases hz : (x + y).isFinite with
  | true =>
      rw [le_iff hx hz]
      exact (nearest_float_add hx hy hz).rounds.below _ (onGrid_toRat x hx)
        (le_add_of_nonneg_right h)
  | false =>
      obtain ⟨hlarge, s, hsign, hinfinity⟩ := overflow_of_not_isFinite hnormal hz
      have hpositive : s = .positive := by
        cases s with
        | positive => rfl
        | negative =>
            have hlargest := abs_le.mp (abs_toRat_le_largest hx)
            simp only [unit, neg_one_mul, neg_nonneg] at hsign
            rw [abs_of_nonpos hsign] at hlarge
            linarith
      have hcompare : (x.toModel.unpack.compare (x + y).toModel.unpack).any (·.isLE) = true := by
        have hsum' : (x + y).toModel.unpack = .infinity .positive := hpositive ▸ hinfinity
        rw [hsum']
        replace hx : x.toModel.unpack.isFinite = true := hx
        generalize x.toModel.unpack = u at hx ⊢
        cases u <;> first | rfl | cases hx
      exact decide_eq_true_iff.mpr hcompare

/-! ## Quotients -/

section Quotients

variable (hx : x.isFinite = true) (hy : y.isFinite = true)

/-- What is out of range before it is packed is not finite. -/
theorem isFinite_of_overflow {exact : ℚ} {u : UnpackedFloat}
    (hz : z.toModel.unpack =
      UnpackedFloat.unpack Format.binary64 (UnpackedFloat.pack Format.binary64 u))
    (hu : RoundsToEven exact (quantity u) ∧ Normalized u) (hsize : 2 ^ (1024 : ℤ) ≤ |exact|) :
    z.isFinite = false := by
  rw [← Bool.not_eq_true]
  intro hfinite
  have hrounds := (roundsToEven_of_unpack hz hu hfinite).nearest.rounds
  have hrange := abs_le.mp (abs_toRat_le_largest hfinite)
  have hgrid : OnGrid (2 ^ (1024 : ℤ)) := onGrid_two_zpow (by decide)
  have hlargest := largest_lt
  rcases le_abs.mp hsize with habove | hbelow
  · linarith [hrounds.below _ hgrid habove]
  · linarith [hrounds.above _ hgrid.neg (le_neg.mp hbelow)]

include hx

/-- What is divided by infinity is nothing. -/
theorem toRat_div_of_infinite (hy : y.isFinite = false) (hy' : y.isNaN = false) :
    (x / y).isFinite = true ∧ toRat (x / y) = 0 := by
  have hzero : ∃ s, UnpackedFloat.div Format.binary64 x.toModel.unpack y.toModel.unpack =
      .zero s := by
    replace hx : x.toModel.unpack.isFinite = true := hx
    replace hy : y.toModel.unpack.isFinite = false := hy
    replace hy' : y.toModel.unpack.isNaN = false := hy'
    generalize x.toModel.unpack = u at hx ⊢
    generalize y.toModel.unpack = v at hy hy' ⊢
    cases v with
    | infinity s' => cases u <;> first | exact ⟨_, rfl⟩ | cases hx
    | notANumber => cases hy'
    | _ => cases hy
  obtain ⟨s, hs⟩ := hzero
  have hz : (x / y).toModel.unpack =
      UnpackedFloat.unpack Format.binary64 (UnpackedFloat.pack Format.binary64 (.zero s)) := by
    rw [← hs]
    rfl
  have h := isRounded_of_unpack hz ⟨.refl _, .zero s⟩
    (by rw [quantity_zero, abs_zero]; exact le_trans (by positivity) two_zpow_le_largest)
  exact ⟨h.finite, h.rounds.eq_of_onGrid onGrid_zero⟩

include hy

theorem isRounded_div (hne : toRat y ≠ 0) (hsize : |toRat x / toRat y| ≤ largest) :
    IsRounded (toRat x / toRat y) (x / y) :=
  isRounded_of_unpack rfl
    (roundsToEven_div (normalized_of_isFinite hx) (normalized_of_isFinite hy) hne) hsize

theorem isFinite_div_of_overflow (hne : toRat y ≠ 0)
    (hsize : 2 ^ (1024 : ℤ) ≤ |toRat x / toRat y|) : (x / y).isFinite = false :=
  isFinite_of_overflow rfl
    (roundsToEven_div (normalized_of_isFinite hx) (normalized_of_isFinite hy) hne) hsize

end Quotients

/-! ## Powers of two -/

theorem Small.exponentAtMost {k : ℤ} {u : UnpackedFloat} (hu : Small k u) : ExponentAtMost k u := by
  cases hu with
  | zero s => exact .zero s
  | finite s hm hlt he => exact .finite s hm he

/-- Bits whose sign is not set are read as they are: a fraction, and above it the field. -/
theorem toRat_ofBits {b : UInt64} (h : b.toNat < 2047 * 2 ^ 52) :
    (Float.ofBits b).isFinite = true ∧
      toRat (Float.ofBits b) =
        (if b.toNat / 2 ^ 52 = 0 then b.toNat % 2 ^ 52 else 2 ^ 52 + b.toNat % 2 ^ 52 : ℕ) *
          2 ^ ((max (b.toNat / 2 ^ 52) 1 : ℕ) - 1075 : ℤ) := by
  have hfield : (@unpackExponent Format.binary64 b.toBitVec).toNat = b.toNat / 2 ^ 52 := by
    rw [unpackExponent_def, BitVec.extractLsb'_toNat, Nat.shiftRight_eq_div_pow]
    show b.toNat / 2 ^ 52 % 2 ^ 11 = b.toNat / 2 ^ 52
    omega
  have hfraction : (@unpackMantissa Format.binary64 b.toBitVec).toNat = b.toNat % 2 ^ 52 := by
    rw [unpackMantissa_def, BitVec.extractLsb'_toNat, Nat.shiftRight_eq_div_pow, Nat.pow_zero,
      Nat.div_one]
    rfl
  have hsign : @unpackSign Format.binary64 b.toBitVec = 0#1 := by
    apply BitVec.eq_of_toNat_eq
    rw [unpackSign_def, BitVec.extractLsb'_toNat, Nat.shiftRight_eq_div_pow]
    show b.toNat / 2 ^ 63 % 2 ^ 1 = 0
    omega
  have hsmall := small_unpack (b := b.toBitVec) (by
    intro hfull
    rw [hfull] at hfield
    have h2047 : (-1#11 : BitVec 11).toNat = 2047 := rfl
    have hfield' : 2047 = b.toNat / 2 ^ 52 := hfield
    omega)
  have hread := readAs_unpack hsmall.isFinite
  rw [hfield] at hsmall
  rw [hfield, hfraction, hsign] at hread
  have hunpack : (Float.ofBits b).toModel.unpack =
      UnpackedFloat.unpack Format.binary64 b.toBitVec :=
    unpack_pack (hread.normalized (by omega)) (hsmall.mono (by omega)).exponentAtMost
  constructor
  · show (Float.ofBits b).toModel.unpack.isFinite = true
    rw [hunpack]
    exact hsmall.isFinite
  · rw [toRat, hunpack, hread.quantity_eq]
    exact one_mul _

theorem toNat_toUInt64 {n : ℕ} (h : n < 2 ^ 64) : n.toUInt64.toNat = n := by
  rw [Nat.toUInt64, UInt64.toNat_ofNat', Nat.mod_eq_of_lt h]

/-- The least powers have an empty field. -/
theorem toRat_powerOfTwo {e : ℤ} (hlow : -1074 ≤ e) (hhigh : e ≤ 1023) :
    (powerOfTwo e).isFinite = true ∧ toRat (powerOfTwo e) = 2 ^ e := by
  simp only [powerOfTwo, Nat.pow_eq]
  split
  · rename_i hfield
    obtain ⟨k, hk⟩ : ∃ k : ℕ, e = k - 1074 := ⟨(e + 1074).toNat, by omega⟩
    have hpow : 2 ^ k < 2 ^ 52 := Nat.pow_lt_pow_right (by decide) (by omega)
    have hexponent : (e + 1074).toNat = k := by omega
    obtain ⟨hfinite, hvalue⟩ := toRat_ofBits (b := (2 ^ k).toUInt64)
      (by rw [toNat_toUInt64] <;> omega)
    rw [hexponent]
    refine ⟨hfinite, ?_⟩
    rw [hvalue, toNat_toUInt64 (by omega), Nat.div_eq_of_lt hpow, if_pos rfl,
      Nat.mod_eq_of_lt hpow, Nat.cast_pow, Nat.cast_two, ← zpow_natCast, ← zpow_add₀ two_ne_zero]
    congr 1
    omega
  · rename_i hfield
    obtain ⟨k, hk⟩ : ∃ k : ℕ, e = k - 1023 := ⟨(e + 1023).toNat, by omega⟩
    have hexponent : (e + 1023).toNat = k := by omega
    have hbits : (k * 2 ^ 52).toUInt64.toNat = k * 2 ^ 52 := toNat_toUInt64 (by omega)
    obtain ⟨hfinite, hvalue⟩ := toRat_ofBits (b := (k * 2 ^ 52).toUInt64) (by rw [hbits]; omega)
    rw [hexponent]
    refine ⟨hfinite, ?_⟩
    rw [hvalue, hbits, Nat.mul_div_cancel _ (by decide), if_neg (by omega), Nat.mul_mod_left,
      add_zero, Nat.cast_pow, Nat.cast_two, ← zpow_natCast, ← zpow_add₀ two_ne_zero]
    congr 1
    omega

/-! ## Remainders -/

theorem exponent_range (hx : x.isFinite = true) : -1074 ≤ exponent x ∧ exponent x ≤ 971 := by
  have hfield : exponentField x < 2047 := by
    have hread := readAs_of_isFinite hx
    generalize x.toModel.unpack = u at hread
    cases hread with
    | zero hfield | least hfield => omega
    | leading _ hfull => exact hfull
  rw [exponent]
  omega

/-- The size of a finite number counts any power of two that is not above its own. -/
theorem significand_mul_eq (hx : x.isFinite = true) {e : ℤ} (he : e ≤ exponent x) :
    toRat x = (if isNegative x then -1 else 1) *
      ((significand x * 2 ^ (exponent x - e).toNat : ℕ) * 2 ^ e) := by
  rw [toRat_eq_parts hx, Nat.cast_mul, mul_assoc (significand x : ℚ), Nat.cast_pow, Nat.cast_two,
    ← zpow_natCast, ← zpow_add₀ two_ne_zero]
  congr 3
  omega

/-- Remainders of sizes that count one power of two, with the sign of the dividend. -/
theorem sub_mul_towardZero {m n : ℕ} (hn : 0 < n) {power : ℚ} (hpower : 0 < power) {p q : ℚ}
    {s s' : Bool} (hp : p = (if s then -1 else 1) * (m * power))
    (hq : q = (if s' then -1 else 1) * (n * power)) :
    p - q * Scalar.towardZero (p / q) = (if s then -1 else 1) * ((m % n : ℕ) * power) := by
  have hquotient : p / q = (if s ^^ s' then -1 else 1) * (m / n) := by
    rw [hp, hq]
    cases s <;> cases s' <;> simp <;> field_simp
  have hfloor : ((⌊(m / n : ℚ)⌋ : ℤ) : ℚ) = (m / n : ℕ) := by
    rw [Rat.floor_natCast_div_natCast]
    rfl
  have hmod : (m : ℚ) = n * (m / n : ℕ) + (m % n : ℕ) := by
    exact_mod_cast (Nat.div_add_mod m n).symm
  rw [hquotient, towardZero_sign_mul (by positivity), hfloor, hp, hq, hmod]
  generalize ((m / n : ℕ) : ℚ) = quotient
  cases s <;> cases s' <;> simp <;> ring

/-- A count of a power of two with a sign, as remainders are put together. -/
theorem toRat_ofInteger_mul_powerOfTwo (negative : Bool) {n : ℕ} {e : ℤ} (hn : n < 2 ^ 53)
    (hlow : -1074 ≤ e) (hhigh : e ≤ 971) :
    (ofInteger negative n * powerOfTwo e).isFinite = true ∧
      toRat (ofInteger negative n * powerOfTwo e) =
        (if negative then -1 else 1) * (n * 2 ^ e) := by
  obtain ⟨hinteger, hinteger'⟩ := toRat_ofInteger negative hn
  obtain ⟨hpower, hpower'⟩ := toRat_powerOfTwo (e := e) hlow (by omega)
  have hproduct := isRounded_mul_of_le hinteger hpower
  rw [hinteger', hpower', mul_assoc] at hproduct
  have hsize : (n : ℚ) * 2 ^ e ≤ largest := by
    have hn' : (n : ℚ) ≤ 2 ^ 53 - 1 := by
      rw [le_sub_iff_add_le]
      exact_mod_cast hn
    rw [largest]
    gcongr
    norm_num
  have hgrid : OnGrid ((n : ℚ) * 2 ^ e) :=
    ⟨n, e, by rw [Nat.abs_cast]; exact_mod_cast hn.le, hlow, by simp⟩
  have hpos : (0 : ℚ) ≤ n * 2 ^ e := by positivity
  cases negative with
  | false =>
      simp only [Bool.false_eq_true, if_false, one_mul] at hproduct ⊢
      have h := hproduct (by rwa [abs_of_nonneg hpos])
      exact ⟨h.finite, h.rounds.eq_of_onGrid hgrid⟩
  | true =>
      simp only [if_true, neg_one_mul] at hproduct ⊢
      have h := hproduct (by rwa [abs_neg, abs_of_nonneg hpos])
      exact ⟨h.finite, h.rounds.eq_of_onGrid hgrid.neg⟩

/-- Both sizes count the smaller of their two powers of two. One of the counts is a significand, and
the remainder of the counts is not larger than either. -/
theorem remainder_eq_counts (hx : x.isFinite = true) (hy : y.isFinite = true)
    (hne : toRat y ≠ 0) :
    ∃ (m n : ℕ) (e : ℤ), 0 < n ∧ m % n < 2 ^ 53 ∧ -1074 ≤ e ∧ e ≤ 971 ∧
      toRat x = (if isNegative x then -1 else 1) * (m * 2 ^ e) ∧
      toRat y = (if isNegative y then -1 else 1) * (n * 2 ^ e) ∧
      remainder x y = ofInteger (isNegative x) (m % n) * powerOfTwo e := by
  have hzero : (y == 0.0) = false := by
    rw [← Bool.not_eq_true, beq_iff zero_eq.1, zero_eq.2]
    exact fun h => hne h.2
  have hinf : y.isInf = false := by
    rw [← Bool.not_eq_true]
    exact fun h => absurd hy (Bool.eq_false_iff.mp (isFinite_of_isInf h))
  have hnan := isNaN_of_isFinite hy
  obtain ⟨hlow, hhigh⟩ := exponent_range hx
  obtain ⟨hlow', -⟩ := exponent_range hy
  obtain ⟨e, he⟩ : ∃ e, e = min (exponent x) (exponent y) := ⟨_, rfl⟩
  obtain ⟨m, hm⟩ : ∃ m, m = significand x * 2 ^ (exponent x - e).toNat := ⟨_, rfl⟩
  obtain ⟨n, hn⟩ : ∃ n, n = significand y * 2 ^ (exponent y - e).toNat := ⟨_, rfl⟩
  have hx' := significand_mul_eq hx (e := e) (by omega)
  have hy' := significand_mul_eq hy (e := e) (by omega)
  rw [← hm] at hx'
  rw [← hn] at hy'
  have hpos : 0 < n := by
    refine Nat.pos_of_ne_zero fun h0 => hne ?_
    rw [hy', h0]
    simp
  have hlt : m % n < 2 ^ 53 := by
    rcases min_choice (exponent x) (exponent y) with hmin | hmin
    · have hsame : (exponent x - e).toNat = 0 := by omega
      rw [hsame, pow_zero, mul_one] at hm
      exact (Nat.mod_le m n).trans_lt (hm ▸ significand_lt x)
    · have hsame : (exponent y - e).toNat = 0 := by omega
      rw [hsame, pow_zero, mul_one] at hn
      exact (Nat.mod_lt m hpos).trans (hn ▸ significand_lt y)
  refine ⟨m, n, e, hpos, hlt, by omega, by omega, hx', hy', ?_⟩
  simp only [remainder, hx, hnan, hzero, hinf]
  rw [hm, hn, he]
  rfl

/-- The remainder of a division whose quotient is rounded toward zero is exact. -/
theorem toRat_remainder (hx : x.isFinite = true) (hy : y.isFinite = true) (hne : toRat y ≠ 0) :
    (remainder x y).isFinite = true ∧
      toRat (remainder x y) = toRat x - toRat y * Scalar.towardZero (toRat x / toRat y) := by
  obtain ⟨m, n, e, hpos, hlt, hlow, hhigh, hx', hy', hvalue⟩ := remainder_eq_counts hx hy hne
  rw [hvalue, sub_mul_towardZero hpos (by positivity) hx' hy']
  exact toRat_ofInteger_mul_powerOfTwo _ hlt hlow hhigh

end Binary64

end Inbetween
