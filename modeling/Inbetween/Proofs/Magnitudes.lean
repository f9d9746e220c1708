import Inbetween.Decimal.Reading
import Mathlib

/-!
# Magnitudes of binary64 numbers

Reading a numeral takes a few products and quotients. None of them is ever undefined, and none but
the product that is checked leaves the range of the format: the exponents of the factors leave room
enough. So whatever is read is a finite number.
-/

namespace Inbetween

namespace Binary64

open Float.Model Float.Model.UnpackedFloat

/-! ## Exponents before packing -/

/-- A finite number whose exponent is at most `k`. -/
inductive ExponentAtMost (k : Int) : UnpackedFloat → Prop
  | zero (s : Sign) : ExponentAtMost k (.zero s)
  | finite (s : Sign) {m : Nat} {e : Int} (hm : 0 < m) (he : e ≤ k) :
      ExponentAtMost k (.finite s m e hm)

/-- Such a number whose significand has at most 53 bits, too. -/
inductive Small (k : Int) : UnpackedFloat → Prop
  | zero (s : Sign) : Small k (.zero s)
  | finite (s : Sign) {m : Nat} {e : Int} (hm : 0 < m) (hlt : m < 2 ^ 53) (he : e ≤ k) :
      Small k (.finite s m e hm)

/-- A finite number with an exponent of at least `j`, which is not zero. -/
inductive ExponentAtLeast (j : Int) : UnpackedFloat → Prop
  | finite (s : Sign) {m : Nat} {e : Int} (hm : 0 < m) (he : j ≤ e) :
      ExponentAtLeast j (.finite s m e hm)

instance (k : Int) : DecidablePred (Small k)
  | .zero s => isTrue (.zero s)
  | .infinity _ | .notANumber => isFalse nofun
  | .finite s m e hm =>
      decidable_of_iff (m < 2 ^ 53 ∧ e ≤ k)
        ⟨fun h => .finite s hm h.1 h.2, fun | .finite _ _ hlt he => ⟨hlt, he⟩⟩

instance (j : Int) : DecidablePred (ExponentAtLeast j)
  | .zero _ | .infinity _ | .notANumber => isFalse nofun
  | .finite s _ e hm => decidable_of_iff (j ≤ e) ⟨.finite s hm, fun | .finite _ _ he => he⟩

theorem Small.mono {k k' : Int} {u : UnpackedFloat} (h : Small k u) (hle : k ≤ k') :
    Small k' u := by
  cases h with
  | zero s => exact .zero s
  | finite s hm hlt he => exact .finite s hm hlt (he.trans hle)

theorem log2_le_of_lt {n k : Nat} (h : n < 2 ^ (k + 1)) : n.log2 ≤ k := by
  rcases Nat.eq_zero_or_pos n with rfl | hpos
  · simp
  · exact Nat.le_of_lt_succ ((Nat.log2_lt hpos.ne').mpr h)

theorem log2_shiftLeft {m : Nat} (hm : 0 < m) (n : Nat) : (m <<< n).log2 = m.log2 + n := by
  have hpos : 0 < 2 ^ n := Nat.two_pow_pos n
  rw [Nat.shiftLeft_eq, Nat.log2_eq_iff (Nat.mul_pos hm hpos).ne']
  constructor
  · rw [Nat.pow_add]
    exact Nat.mul_le_mul_right _ (Nat.log2_self_le hm.ne')
  · rw [Nat.add_right_comm, Nat.pow_add]
    exact Nat.mul_lt_mul_of_pos_right Nat.lt_log2_self hpos

theorem mantissa_shiftRight (em : ExtendedMantissa) (n : Nat) :
    (em >>> n).mantissa = em.mantissa / 2 ^ n := by
  induction n with
  | zero => simp [HShiftRight.hShiftRight, Nat.repeat]
  | succ n ih =>
      show (em >>> n).mantissa / 2 = _
      rw [ih, Nat.div_div_eq_div_mul, Nat.pow_succ]

theorem roundedMantissa_le (em : ExtendedMantissa) : em.roundedMantissa ≤ em.mantissa + 1 := by
  obtain ⟨m, round, sticky⟩ := em
  cases round <;> cases sticky <;>
    simp only [ExtendedMantissa.roundedMantissa, ExtendedMantissa.accuracy,
      Accuracy.roundToNearestEven] <;> omega

theorem le_roundedMantissa (em : ExtendedMantissa) : em.mantissa ≤ em.roundedMantissa := by
  obtain ⟨m, round, sticky⟩ := em
  cases round <;> cases sticky <;>
    simp only [ExtendedMantissa.roundedMantissa, ExtendedMantissa.accuracy,
      Accuracy.roundToNearestEven] <;> omega

theorem mantissa_ofMantissaAndAccuracy (m : Nat) (accuracy : Accuracy) :
    (ExtendedMantissa.ofMantissaAndAccuracy m accuracy).mantissa = m := by
  cases accuracy with
  | exact => rfl
  | inexact o => cases o <;> rfl

theorem targetExponent_eq (t : Int) : Format.binary64.targetExponent t = max (t - 53) (-1074) := rfl

theorem mantissa_shiftToTargetExponent (m : Nat) (e : Int) (accuracy : Accuracy) :
    (shiftToTargetExponent Format.binary64 m e accuracy).1.mantissa =
      m / 2 ^ (max (totalExponent m e - 53) (-1074) - e).toNat := by
  simp only [shiftToTargetExponent, shiftToExponent, mantissa_shiftRight,
    mantissa_ofMantissaAndAccuracy, targetExponent_eq]

/-- A shift leaves at most 53 bits. -/
theorem mantissa_shiftToTargetExponent_lt (m : Nat) (e : Int) (accuracy : Accuracy) :
    (shiftToTargetExponent Format.binary64 m e accuracy).1.mantissa < 2 ^ 53 := by
  rw [mantissa_shiftToTargetExponent, totalExponent]
  refine Nat.div_lt_of_lt_mul ?_
  rw [← Nat.pow_add]
  refine Nat.lt_of_lt_of_le Nat.lt_log2_self (Nat.pow_le_pow_right (by decide) ?_)
  omega

theorem exponent_shiftToTargetExponent (m : Nat) (e : Int) (accuracy : Accuracy) :
    (shiftToTargetExponent Format.binary64 m e accuracy).2 =
      max e (max (totalExponent m e - 53) (-1074)) := by
  simp only [shiftToTargetExponent, shiftToExponent, targetExponent_eq]
  omega

/-- Rounding raises an exponent by at most one beyond what the 53 bits of the significand ask for.
-/
theorem exponentAtMost_round {k : Int} (hk : -1074 < k) (s : Sign) {m : Nat} {e : Int}
    (he : e < k) (ht : totalExponent m e < k + 53) (accuracy : Accuracy) :
    ExponentAtMost k (roundWithAccuracy Format.binary64 s m e accuracy) := by
  have hlt := mantissa_shiftToTargetExponent_lt m e accuracy
  have hfirst := exponent_shiftToTargetExponent m e accuracy
  simp only [roundWithAccuracy]
  generalize shiftToTargetExponent Format.binary64 m e accuracy = first at hlt hfirst
  have hrounded := roundedMantissa_le first.1
  have hlog : first.1.roundedMantissa.log2 ≤ 53 := log2_le_of_lt (by omega)
  split
  · exact .zero s
  · refine .finite s _ ?_
    simp only [exponent_shiftToTargetExponent, hfirst, totalExponent] at ht ⊢
    omega

/-! ## Packing -/

theorem toNat_cons_lt (m : BitVec 52) : (1#1 ++ m).toNat < 2 ^ 53 := (1#1 ++ m).isLt

/-- Unless its exponent field is full, a number is finite, and the field tells its exponent. -/
theorem small_unpack {b : BitVec 64} (h : @unpackExponent Format.binary64 b ≠ -1#_) :
    Small (max (@unpackExponent Format.binary64 b).toNat 1 - 1075)
      (UnpackedFloat.unpack Format.binary64 b) := by
  have hbias : (Format.binary64.exponentBias : Int) +
      (Format.binary64.mantissaBitsWithoutImplicit : Nat) = 1075 := rfl
  simp only [UnpackedFloat.unpack, if_neg h]
  split
  · rename_i hzero
    split
    · exact .zero _
    · refine .finite _ _ (Nat.lt_of_lt_of_le (BitVec.isLt _) (by decide)) ?_
      simp only [hzero]
      decide
  · rename_i hzero
    refine .finite _ _ (toNat_cons_lt _) ?_
    simp only [hbias]
    omega

theorem small_unpack_packComponents {k : Int} (hk : -1074 ≤ k) (s : Sign) {field : BitVec 11}
    (hfield : field.toNat ≤ 2046) (hle : (field.toNat : Int) - 1075 ≤ k) (m : BitVec 52) :
    Small k (UnpackedFloat.unpack Format.binary64 (packComponents Format.binary64 s field m)) := by
  have hexponent : unpackExponent (packComponents Format.binary64 s field m) = field :=
    unpackExponent_packComponents
  generalize packComponents Format.binary64 s field m = b at hexponent ⊢
  have hnot : unpackExponent b ≠ -1#11 := by
    intro h
    rw [h] at hexponent
    rw [← hexponent] at hfield
    exact absurd hfield (by decide)
  have hsmall := small_unpack hnot
  rw [hexponent] at hsmall
  exact hsmall.mono (by omega)

/-- The exponent field of a packed number counts from the least exponent. -/
theorem pack_finite (s : Sign) (m : Nat) (e : Int) (hm : 0 < m) :
    UnpackedFloat.pack Format.binary64 (.finite s m e hm) =
      if 2 ^ 11 ≤ (e + 1075).toNat + 1 then packedInfinity Format.binary64 s
      else if m.log2 + 1 = 1 + 52 then
        packComponents Format.binary64 s (BitVec.ofNat 11 (e + 1075).toNat) (BitVec.ofNat 52 m)
      else packComponents Format.binary64 s 0#11 (BitVec.ofNat 52 m) := by
  have hbiased : (e + (1023 : Nat) + (52 : Nat)).toNat = (e + 1075).toNat := by omega
  rw [← hbiased]
  rfl

/-- A finite number whose exponent is in range is packed as a finite number. -/
theorem small_unpack_pack {k : Int} (hk : -1074 ≤ k) (hk' : k ≤ 971) {u : UnpackedFloat}
    (h : ExponentAtMost k u) :
    Small k (UnpackedFloat.unpack Format.binary64 (UnpackedFloat.pack Format.binary64 u)) := by
  have hzero : ((0#11).toNat : Int) - 1075 ≤ k := by
    simp only [BitVec.toNat_ofNat]
    omega
  cases h with
  | zero s => exact small_unpack_packComponents hk s (by decide) hzero 0
  | @finite s m e hm he =>
      rw [pack_finite, if_neg (by omega)]
      split
      · have hvalue : (BitVec.ofNat 11 (e + 1075).toNat).toNat = (e + 1075).toNat := by
          rw [BitVec.toNat_ofNat, Nat.mod_eq_of_lt (by omega)]
        exact small_unpack_packComponents hk s (by omega) (by omega) _
      · exact small_unpack_packComponents hk s (by decide) hzero _

theorem unpack_packedInfinity (s : Sign) :
    UnpackedFloat.unpack Format.binary64 (packedInfinity Format.binary64 s) = .infinity s := by
  cases s <;> rfl

/-- What is packed is infinite or finite, unless it is not a number before. -/
theorem small_of_not_isInf {u : UnpackedFloat} (hu : u ≠ .notANumber)
    (h : (UnpackedFloat.unpack Format.binary64
      (UnpackedFloat.pack Format.binary64 u)).isInf = false) :
    Small 971 (UnpackedFloat.unpack Format.binary64 (UnpackedFloat.pack Format.binary64 u)) := by
  cases u with
  | zero s => exact small_unpack_pack (by decide) (by decide) (.zero s)
  | infinity s =>
      rw [UnpackedFloat.pack, unpack_packedInfinity] at h
      cases h
  | notANumber => exact absurd rfl hu
  | finite s m e hm =>
      by_cases he : e ≤ 971
      · exact small_unpack_pack (by decide) (by decide) (.finite s hm he)
      · rw [pack_finite, if_pos (by omega), unpack_packedInfinity] at h
        cases h

/-! ## Operations -/

theorem log2_mul_le {m n : Nat} (hm : m < 2 ^ 53) (hn : n < 2 ^ 53) : (m * n).log2 ≤ 105 := by
  refine log2_le_of_lt ?_
  calc m * n < 2 ^ 53 * 2 ^ 53 := Nat.mul_lt_mul'' hm hn
    _ = 2 ^ (105 + 1) := by decide

theorem exponentAtMost_mul {j k l : Int} (hl : -1074 < l) (hjk : j + k + 54 ≤ l)
    {u v : UnpackedFloat} (hu : Small j u) (hv : Small k v) :
    ExponentAtMost l (UnpackedFloat.mul Format.binary64 u v) := by
  cases hu with
  | zero s =>
      cases hv with
      | zero s' => exact .zero (s * s')
      | finite s' hm' hlt' he' => exact .zero (s * s')
  | @finite s m e hm hlt he =>
      cases hv with
      | zero s' => exact .zero (s * s')
      | @finite s' m' e' hm' hlt' he' =>
          have hlog := log2_mul_le hlt hlt'
          have htotal : totalExponent (m * m') (e + e') < l + 53 := by
            rw [totalExponent]
            omega
          exact exponentAtMost_round hl (s * s') (by omega) htotal .exact

/-- Dividing by a number with an exponent of at least -52. -/
theorem exponentAtMost_div {k l : Int} (hl : -1074 < l) (hk : k + 53 ≤ l) {u v : UnpackedFloat}
    (hu : Small k u) (hv : ExponentAtLeast (-52) v) :
    ExponentAtMost l (UnpackedFloat.div Format.binary64 u v) := by
  obtain ⟨s', hm', he'⟩ := hv
  rename_i m' e'
  cases hu with
  | zero s => exact .zero (s / s')
  | @finite s m e hm hlt he =>
      simp only [UnpackedFloat.div, divCore]
      have htarget := Int.min_le_left (e - e') (Format.binary64.targetExponent
        (totalExponent m e - totalExponent m' e'))
      generalize min (e - e') (Format.binary64.targetExponent _) = target at htarget ⊢
      have hlog : (m <<< (e - e' - target).toNat / m').log2 ≤
          52 + (e - e' - target).toNat := by
        refine log2_le_of_lt (Nat.lt_of_le_of_lt (Nat.div_le_self _ _) ?_)
        rw [Nat.shiftLeft_eq, Nat.add_right_comm, Nat.pow_add]
        exact Nat.mul_lt_mul_of_pos_right hlt (Nat.two_pow_pos _)
      refine exponentAtMost_round hl (s / s') (by omega) ?_ _
      rw [totalExponent]
      omega

theorem exponentAtMost_neg {k : Int} {u : UnpackedFloat} (hu : Small k u) :
    ExponentAtMost k u.neg := by
  cases hu with
  | zero s => exact .zero (-s)
  | finite s hm hlt he => exact .finite (-s) hm he

theorem exponentAtMost_ofNat {n : Nat} (hn : n < 2 ^ 64) :
    ExponentAtMost 12 (UnpackedFloat.ofNat Format.binary64 n) := by
  rcases Nat.eq_zero_or_pos n with rfl | hpos
  · exact .zero .positive
  · have hgt : compare (n : Int) 0 = .gt := by
      rw [Int.compare_eq_gt]
      omega
    have hlog : n.log2 ≤ 63 := log2_le_of_lt hn
    simp only [UnpackedFloat.ofNat, UnpackedFloat.ofInt, UnpackedFloat.normalize, hgt,
      Int.toNat_natCast, UnpackedFloat.round, decreaseExponent]
    refine exponentAtMost_round (by decide) _ (by omega) ?_ _
    rw [totalExponent, log2_shiftLeft hpos]
    omega

/-! ## Powers of ten -/

/-- A shift keeps 53 bits, if there are as many. -/
theorem le_mantissa_shiftToTargetExponent {m : Nat} {e : Int} (hm : 2 ^ 52 ≤ m) (he : -1074 ≤ e)
    (accuracy : Accuracy) :
    2 ^ 52 ≤ (shiftToTargetExponent Format.binary64 m e accuracy).1.mantissa := by
  have hpos : m ≠ 0 := by omega
  have hlog : 52 ≤ m.log2 := (Nat.le_log2 hpos).mpr hm
  rw [mantissa_shiftToTargetExponent, totalExponent, Nat.le_div_iff_mul_le (Nat.two_pow_pos _),
    ← Nat.pow_add]
  refine Nat.le_trans (Nat.pow_le_pow_right (by decide) ?_) (Nat.log2_self_le hpos)
  omega

/-- Rounding a significand of 53 bits or more leaves one of 53 bits. -/
theorem normal_round (s : Sign) {m : Nat} {e : Int} (hm : 2 ^ 52 ≤ m) (he : -1074 ≤ e) :
    ∃ m' e' hpos, roundWithAccuracy Format.binary64 s m e .exact = .finite s m' e' hpos ∧
      m'.log2 = 52 ∧ e + (m.log2 - 52) ≤ e' := by
  have hfirst := exponent_shiftToTargetExponent m e .exact
  have hmantissa := le_mantissa_shiftToTargetExponent hm he .exact
  simp only [roundWithAccuracy]
  generalize shiftToTargetExponent Format.binary64 m e .exact = first at hfirst hmantissa
  -- Rounding may carry into a 54th bit, and the second shift drops a bit then.
  have hrounded := hmantissa.trans (le_roundedMantissa first.1)
  have hsecond := exponent_shiftToTargetExponent first.1.roundedMantissa first.2 .exact
  have hlt := mantissa_shiftToTargetExponent_lt first.1.roundedMantissa first.2 .exact
  have hle := le_mantissa_shiftToTargetExponent hrounded
    (by rw [hfirst]; omega : -1074 ≤ first.2) .exact
  rw [totalExponent] at hfirst
  rw [dif_neg (by omega)]
  refine ⟨_, _, _, rfl, ?_, by omega⟩
  exact (Nat.log2_eq_iff (by omega)).mpr ⟨hle, hlt⟩

/-- Where the significand has 53 bits, packing keeps the exponent. -/
theorem exponentAtLeast_unpack_pack {j : Int} (hj : -1074 ≤ j) (s : Sign) {m : Nat} {e : Int}
    (hm : 0 < m) (hlog : m.log2 = 52) (he : j ≤ e) (he' : e ≤ 971) :
    ExponentAtLeast j (UnpackedFloat.unpack Format.binary64
      (UnpackedFloat.pack Format.binary64 (.finite s m e hm))) := by
  have hvalue : (BitVec.ofNat 11 (e + 1075).toNat).toNat = (e + 1075).toNat := by
    rw [BitVec.toNat_ofNat, Nat.mod_eq_of_lt (by omega)]
  rw [pack_finite, if_neg (by omega), if_pos (by omega)]
  have hexponent : unpackExponent (packComponents Format.binary64 s
      (BitVec.ofNat 11 (e + 1075).toNat) (BitVec.ofNat 52 m)) = BitVec.ofNat 11 (e + 1075).toNat :=
    unpackExponent_packComponents
  generalize packComponents Format.binary64 s _ (BitVec.ofNat 52 m) = b at hexponent ⊢
  generalize BitVec.ofNat 11 (e + 1075).toNat = field at hvalue hexponent
  have hfull : field ≠ -1#11 := by
    rintro rfl
    have h2047 : ((-1#11 : BitVec 11)).toNat = 2047 := rfl
    omega
  have hempty : field ≠ 0#11 := by
    rintro rfl
    have h0 : ((0#11 : BitVec 11)).toNat = 0 := rfl
    omega
  simp only [UnpackedFloat.unpack, hexponent, if_neg hfull, if_neg hempty, hvalue]
  refine .finite _ _ ?_
  show j ≤ ((e + 1075).toNat : Int) - 1075
  omega

/-! ## Single numbers -/

/-- The number is finite, with an exponent of at most `k`. -/
def Within (k : Int) (x : Float) : Prop := Small k x.toModel.unpack

theorem Within.mono {k k' : Int} {x : Float} (h : Within k x) (hle : k ≤ k') : Within k' x :=
  Small.mono h hle

theorem Small.isFinite {k : Int} {u : UnpackedFloat} (h : Small k u) : u.isFinite = true := by
  cases h <;> rfl

theorem Within.isFinite {k : Int} {x : Float} (h : Within k x) : x.isFinite = true :=
  Small.isFinite h

theorem within_mul {j k l : Int} (hl : -1074 < l) (hl' : l ≤ 971) (hjk : j + k + 54 ≤ l)
    {x y : Float} (hx : Within j x) (hy : Within k y) : Within l (x * y) :=
  small_unpack_pack hl.le hl' (exponentAtMost_mul hl hjk hx hy)

theorem within_div {k l : Int} (hl : -1074 < l) (hl' : l ≤ 971) (hk : k + 53 ≤ l) {x y : Float}
    (hx : Within k x) (hy : ExponentAtLeast (-52) y.toModel.unpack) : Within l (x / y) :=
  small_unpack_pack hl.le hl' (exponentAtMost_div hl hk hx hy)

theorem within_neg {k : Int} (hk : -1074 ≤ k) (hk' : k ≤ 971) {x : Float} (hx : Within k x) :
    Within k (-x) :=
  small_unpack_pack hk hk' (exponentAtMost_neg hx)

/-- A product that is not infinite is finite. -/
theorem within_mul_of_not_isInf {j k : Int} (hjk : -1074 < j + k + 54) {x y : Float}
    (hx : Within j x) (hy : Within k y) (h : (x * y).isInf = false) : Within 971 (x * y) := by
  refine small_of_not_isInf ?_ h
  intro hnan
  have hproduct := exponentAtMost_mul hjk le_rfl hx hy
  rw [hnan] at hproduct
  cases hproduct

/-! ## Natural numbers and powers of ten -/

/-- A natural number times a power of ten is rounded once, from 53 more bits than it has. -/
theorem ofScientific_eq {m n : Nat} (hm : m ≠ 0) (hn : n ≤ 308) :
    UnpackedFloat.ofScientific Format.binary64 m (n : Int) =
      roundWithAccuracy Format.binary64 .positive ((m <<< 53) * 10 ^ n) (-53) .exact := by
  have hhigh : ¬ (n : Int) > 2 ^ 11 := by omega
  have hlow : ¬ (n : Int) < -((2 ^ 11 : Int) + (m.log2 : Nat)) := by omega
  have hnonneg : (0 : Int) ≤ n := Int.natCast_nonneg n
  rw [UnpackedFloat.ofScientific, dif_neg hm, if_neg hhigh, if_neg hlow, if_pos hnonneg]
  rfl

theorem within_toFloat {n : UInt64} : Within 12 n.toFloat :=
  small_unpack_pack (by decide) (by decide) (exponentAtMost_ofNat n.toNat_lt)

theorem within_ofNat {n : Nat} (hn : n < 2 ^ 64) : Within 14 (Float.ofNat n) := by
  show Within 14 (Float.ofScientific n false 0)
  rw [Float.ofScientific]
  split
  · have hone : Small (-52) (Float.ofBits 0x3FF0000000000000).toModel.unpack := by
      decide +kernel
    exact within_mul (by decide) (by decide) (by decide) within_toFloat hone
  · rename_i hlarge
    have hpos : 0 < n := by omega
    have hlog : n.log2 ≤ 63 := log2_le_of_lt hn
    have hround : ExponentAtMost 12 (UnpackedFloat.ofScientific Format.binary64 n (0 : Nat)) := by
      have htotal : totalExponent (n <<< 53) (-53) < 12 + 53 := by
        rw [totalExponent, log2_shiftLeft hpos]
        omega
      rw [ofScientific_eq hpos.ne' (by decide), Nat.pow_zero, Nat.mul_one]
      exact exponentAtMost_round (by decide) .positive (by decide) htotal .exact
    exact (small_unpack_pack (by decide) (by decide) hround).mono (by decide)

open Decimal (powerOfTen)

/-- The powers whose exact values are tabulated, and the greatest one. -/
theorem powerOfTen_of_mem : ∀ n ∈ 308 :: List.range 23,
    Small 971 (powerOfTen n).toModel.unpack ∧
      ExponentAtLeast (-52) (powerOfTen n).toModel.unpack := by
  decide +kernel

/-- The other powers are rounded once. -/
theorem unpack_powerOfTen {n : Nat} (hlow : 22 < n) (hhigh : n ≤ 308) :
    (powerOfTen n).toModel.unpack = UnpackedFloat.unpack Format.binary64
      (UnpackedFloat.pack Format.binary64
        (roundWithAccuracy Format.binary64 .positive ((10 ^ n) <<< 53) (-53) .exact)) := by
  have hshift : (1 <<< 53) * 10 ^ n = (10 ^ n) <<< 53 := by
    rw [Nat.shiftLeft_eq, Nat.shiftLeft_eq, Nat.one_mul, Nat.mul_comm]
  have hpower : powerOfTen n = Float.ofModel (.ofScientific 1 n) := by
    show Float.ofScientific 1 false n = _
    rw [Float.ofScientific, dif_neg (by omega)]
    rfl
  rw [hpower, ← hshift, ← ofScientific_eq one_ne_zero hhigh]
  rfl

theorem log2_ten_pow_le {n : Nat} (h : n < 308) : (10 ^ n).log2 ≤ 1021 := by
  refine log2_le_of_lt ?_
  calc 10 ^ n ≤ 10 ^ 307 := Nat.pow_le_pow_right (by decide) (Nat.le_of_lt_succ h)
    _ < 2 ^ (1021 + 1) := by decide +kernel

theorem powerOfTen_of_lt {n : Nat} (hlow : 22 < n) (hhigh : n < 308) :
    Small 971 (powerOfTen n).toModel.unpack ∧
      ExponentAtLeast (-52) (powerOfTen n).toModel.unpack := by
  have hpos : 0 < 10 ^ n := Nat.pow_pos (by decide)
  have hlog := log2_ten_pow_le hhigh
  have hbits : 2 ^ 52 ≤ (10 ^ n) <<< 53 := by
    rw [Nat.shiftLeft_eq]
    omega
  have hmost : ExponentAtMost 971
      (roundWithAccuracy Format.binary64 .positive ((10 ^ n) <<< 53) (-53) .exact) := by
    refine exponentAtMost_round (by decide) .positive (by decide) ?_ .exact
    rw [totalExponent, log2_shiftLeft hpos]
    omega
  obtain ⟨m, e, hm, hround, hlog', hle⟩ :=
    normal_round .positive hbits (by decide : (-1074 : Int) ≤ -53)
  rw [log2_shiftLeft hpos] at hle
  rw [unpack_powerOfTen hlow hhigh.le]
  refine ⟨small_unpack_pack (by decide) (by decide) hmost, ?_⟩
  rw [hround] at hmost ⊢
  cases hmost with
  | finite _ _ he =>
      exact exponentAtLeast_unpack_pack (by decide) .positive hm hlog' (by omega) he

theorem powerOfTen_bounds {n : Nat} (hn : n ≤ 308) :
    Small 971 (powerOfTen n).toModel.unpack ∧
      ExponentAtLeast (-52) (powerOfTen n).toModel.unpack := by
  -- The bound on the exponent leaves no room for the greatest power, so its bits are looked at.
  by_cases hmiddle : 22 < n ∧ n < 308
  · exact powerOfTen_of_lt hmiddle.1 hmiddle.2
  · refine powerOfTen_of_mem n ?_
    rw [List.mem_cons, List.mem_range]
    omega

end Binary64

/-! ## Numerals -/

namespace Decimal

open Binary64

theorem absorb_lt {significand : Nat} (h : significand < 2 ^ 64) (ds : List Digit) :
    (absorb significand ds).1 < 2 ^ 64 := by
  induction ds generalizing significand with
  | nil => exact h
  | cons d ds ih =>
      rw [absorb]
      exact iteInduction (motive := fun (r : Nat × Nat) => r.1 < 2 ^ 64) (fun hnext => ih hnext)
        fun _ => h

theorem within_shrink {x : Float} (hx : Within 14 x) (n : Nat) : Within 971 (shrink x n) := by
  rw [shrink]
  split
  · rename_i hn
    exact within_div (by decide) (by decide) (by decide) hx (powerOfTen_bounds hn).2
  · split
    · -- Quotients are no larger than the dividend, so two of them stay as far from the limit.
      have hgreatest := (powerOfTen_bounds (Nat.le_refl 308)).2
      have hrest := (powerOfTen_bounds (n := n - 308) (by omega)).2
      have hfirst : Within 67 (x / powerOfTen 308) :=
        within_div (by decide) (by decide) (by decide) hx hgreatest
      exact within_div (by decide) (by decide) (by decide) hfirst hrest
    · show Small 971 (0.0 : Float).toModel.unpack
      decide +kernel

theorem within_grow {x y : Float} (hx : Within 14 x) {n : Nat} (h : grow? x n = some y) :
    Within 971 y := by
  simp only [grow?] at h
  split at h
  · rename_i hn
    split at h
    · cases h
    · rename_i hinf
      cases h
      exact within_mul_of_not_isInf (by decide) hx (powerOfTen_bounds hn).1
        (Bool.eq_false_iff.mpr hinf)
  · split at h
    · cases h
      exact hx.mono (by decide)
    · cases h

/-- **What is read is finite.** -/
theorem Numeral.isFinite_of_toFloat? {n : Numeral} {x : Float} (h : n.toFloat? = some x) :
    x.isFinite = true := by
  simp only [Numeral.toFloat?] at h
  obtain ⟨size, hsize, hx⟩ := Option.map_eq_some_iff.mp h
  have hzero : 0 < 2 ^ 64 := by decide
  have hsignificand := within_ofNat (absorb_lt (absorb_lt hzero n.whole) n.fraction)
  have hwithin : Within 971 size := by
    split at hsize
    · exact within_grow hsignificand hsize
    · cases hsize
      exact within_shrink hsignificand _
  rw [← hx]
  split
  · exact (within_neg (by decide) (by decide) hwithin).isFinite
  · exact hwithin.isFinite

end Decimal

end Inbetween
