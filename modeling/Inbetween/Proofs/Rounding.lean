import Inbetween.Proofs.Magnitudes

/-!
# Rounding

A finite binary64 number stands for a rational number. An operation computes the exact result and
rounds it to a number of the format, to which no other one is nearer. So rounding does not pass any
number of the format: what is not above such a number is not above it once it is rounded, and what
is not below it is not below it then. Bounds that the exact results keep are kept by the rounded
ones, too.
-/

namespace Inbetween

namespace Binary64

open Float.Model Float.Model.UnpackedFloat

/-! ## Rational numbers -/

/-- One, with the sign. -/
def unit : Sign → ℚ
  | .positive => 1
  | .negative => -1

/-- The rational number that a finite number stands for. -/
def quantity : UnpackedFloat → ℚ
  | .finite s m e _ => unit s * (m * 2 ^ e)
  | _ => 0

/-- A number that fits into the significand, at an exponent that is not too small. -/
def OnGrid (r : ℚ) : Prop := ∃ n k : ℤ, |n| ≤ 2 ^ 53 ∧ -1074 ≤ k ∧ r = n * 2 ^ k

/-- No number of the grid is nearer to the exact result than the rounded one. -/
def Nearest (exact rounded : ℚ) : Prop := ∀ r, OnGrid r → |rounded - exact| ≤ |r - exact|

/-- No number of the grid is nearer, and if another one is as near, then the rounded one is an even
multiple of the distance between the two. -/
structure RoundsToEven (exact rounded : ℚ) : Prop where
  nearest : Nearest exact rounded
  even : ∀ r, OnGrid r → r ≠ rounded → |r - exact| = |rounded - exact| →
    ∃ n : ℤ, Even n ∧ rounded = n * (r - rounded)

/-- There is no number of the grid between the exact result and the rounded one. -/
structure Rounds (exact rounded : ℚ) : Prop where
  below : ∀ r, OnGrid r → r ≤ exact → r ≤ rounded
  above : ∀ r, OnGrid r → exact ≤ r → rounded ≤ r

theorem OnGrid.neg {r : ℚ} (h : OnGrid r) : OnGrid (-r) := by
  obtain ⟨n, k, hn, hk, rfl⟩ := h
  exact ⟨-n, k, by rwa [abs_neg], hk, by push_cast; ring⟩

theorem onGrid_intCast {n : ℤ} (h : |n| ≤ 2 ^ 53) : OnGrid n := ⟨n, 0, h, by decide, by simp⟩

theorem onGrid_zero : OnGrid 0 := ⟨0, 0, by decide, by decide, by simp⟩

theorem onGrid_two_zpow {k : ℤ} (h : -1074 ≤ k) : OnGrid (2 ^ k) := ⟨1, k, by decide, h, by simp⟩

namespace Rounds

variable {x y : ℚ}

/-- Numbers of the grid stay what they are. -/
theorem eq_of_onGrid (h : Rounds x y) (hx : OnGrid x) : y = x :=
  le_antisymm (h.above x hx le_rfl) (h.below x hx le_rfl)

theorem abs_le_of_onGrid {b : ℚ} (h : Rounds x y) (hb : OnGrid b) (hx : |x| ≤ b) : |y| ≤ b :=
  abs_le.mpr ⟨h.below _ hb.neg (abs_le.mp hx).1, h.above _ hb (abs_le.mp hx).2⟩

end Rounds

namespace Nearest

variable {x y : ℚ}

theorem refl (x : ℚ) : Nearest x x := fun r _ => by
  rw [sub_self, abs_zero]
  exact abs_nonneg (r - x)

theorem neg (h : Nearest x y) : Nearest (-x) (-y) := fun r hr => by
  have hflip : r - -x = -(-r - x) := by ring
  rw [hflip, abs_neg, neg_sub_neg, abs_sub_comm]
  exact h (-r) hr.neg

/-- What lies between two numbers is nearer to either of them than the other one is. -/
theorem rounds (h : Nearest x y) : Rounds x y where
  below r hr hle := by
    have hnear := h r hr
    rw [abs_of_nonpos (sub_nonpos.mpr hle)] at hnear
    linarith [neg_abs_le (y - x)]
  above r hr hle := by
    have hnear := h r hr
    rw [abs_of_nonneg (sub_nonneg.mpr hle)] at hnear
    linarith [le_abs_self (y - x)]

end Nearest

namespace RoundsToEven

variable {x y : ℚ}

theorem refl (x : ℚ) : RoundsToEven x x where
  nearest := .refl x
  even r _ hne htie := by
    rw [sub_self, abs_zero, abs_eq_zero, sub_eq_zero] at htie
    exact absurd htie hne

theorem neg (h : RoundsToEven x y) : RoundsToEven (-x) (-y) where
  nearest := h.nearest.neg
  even r hr hne htie := by
    have hflip : r - -x = -(-r - x) := by ring
    rw [hflip, abs_neg, neg_sub_neg, abs_sub_comm x] at htie
    have hne' : -r ≠ y := fun hsame => hne (by rw [← hsame, neg_neg])
    obtain ⟨n, heven, hn⟩ := h.even (-r) hr.neg hne' htie
    exact ⟨n, heven, by linear_combination -hn⟩

theorem unit_mul (h : RoundsToEven x y) (s : Sign) : RoundsToEven (unit s * x) (unit s * y) := by
  cases s with
  | positive => simpa [unit] using h
  | negative => simpa [unit] using h.neg

end RoundsToEven

/-! ## Errors -/

namespace Nearest

variable {x y : ℚ}

/-- The rounded number is at most twice as far from a number of the grid as the exact one is. -/
theorem abs_sub_le_two_mul (h : Nearest x y) {r : ℚ} (hr : OnGrid r) :
    |y - r| ≤ 2 * |x - r| := by
  have hnear := h r hr
  rw [abs_sub_comm r] at hnear
  linarith [abs_sub_le y x r]

/-- Rounding errs by half of the last place at most, where 53 bits reach down to it. -/
theorem abs_sub_le_half (h : Nearest x y) {k : ℤ} (hk : -1074 ≤ k) (hx : |x| ≤ 2 ^ 53 * 2 ^ k) :
    |y - x| ≤ 2 ^ k / 2 := by
  have hpos : (0 : ℚ) < 2 ^ k := by positivity
  obtain ⟨n, hround⟩ : ∃ n : ℤ, |x / 2 ^ k - n| ≤ 1 / 2 := ⟨_, abs_sub_round _⟩
  have hquotient : |x / 2 ^ k| ≤ 2 ^ 53 := by rwa [abs_div, abs_of_pos hpos, div_le_iff₀ hpos]
  have hn : |n| ≤ 2 ^ 53 := by
    have hlt : |(n : ℚ)| < 2 ^ 53 + 1 := by
      have htriangle := abs_sub_abs_le_abs_sub (n : ℚ) (x / 2 ^ k)
      rw [abs_sub_comm] at htriangle
      linarith
    exact Int.lt_add_one_iff.mp (by exact_mod_cast hlt)
  calc |y - x| ≤ |n * 2 ^ k - x| := h _ ⟨n, k, hn, hk, rfl⟩
    _ = |x / 2 ^ k - n| * 2 ^ k := by
      rw [abs_sub_comm, ← abs_of_pos hpos, ← abs_mul, abs_of_pos hpos, sub_mul,
        div_mul_cancel₀ _ hpos.ne']
    _ ≤ 1 / 2 * 2 ^ k := mul_le_mul_of_nonneg_right hround hpos.le
    _ = 2 ^ k / 2 := by ring

/-- The error is small against the number. Multiples of the least number need no rounding where
there are not enough bits for that. -/
theorem abs_sub_le_mul_abs (h : Nearest x y) {n : ℤ} (hx : x = n * 2 ^ (-1074 : ℤ)) :
    |y - x| ≤ 2 ^ (-53 : ℤ) * |x| := by
  have hsplit : (2 : ℚ) ^ (-1021 : ℤ) = 2 ^ 53 * 2 ^ (-1074 : ℤ) := by
    rw [← zpow_natCast, ← zpow_add₀ two_ne_zero]
    rfl
  rcases lt_or_ge |x| (2 ^ (-1021 : ℤ)) with hsmall | hlarge
  · have hleast : (0 : ℚ) < 2 ^ (-1074 : ℤ) := by positivity
    have hn : |n| < 2 ^ 53 := by
      rw [hx, abs_mul, abs_of_pos hleast, hsplit] at hsmall
      exact_mod_cast lt_of_mul_lt_mul_right hsmall hleast.le
    rw [h.rounds.eq_of_onGrid ⟨n, -1074, hn.le, le_rfl, hx⟩, sub_self, abs_zero]
    positivity
  · have hpos : 0 < |x| := lt_of_lt_of_le (by positivity) hlarge
    obtain ⟨k, hlow, hhigh⟩ : ∃ k : ℤ, (2 : ℚ) ^ k ≤ |x| ∧ |x| < 2 ^ (k + 1) :=
      ⟨Int.log 2 |x|, by exact_mod_cast Int.zpow_log_le_self one_lt_two hpos,
        by exact_mod_cast Int.lt_zpow_succ_log_self one_lt_two |x|⟩
    have hk : -1021 < k + 1 := (zpow_lt_zpow_iff_right₀ one_lt_two).mp (hlarge.trans_lt hhigh)
    have hlast : (2 : ℚ) ^ (k + 1) = 2 ^ 53 * 2 ^ (k - 52) := by
      rw [← zpow_natCast, ← zpow_add₀ two_ne_zero]
      congr 1
      ring
    calc |y - x| ≤ 2 ^ (k - 52) / 2 := h.abs_sub_le_half (by omega) (hlast ▸ hhigh.le)
      _ = 2 ^ (-53 : ℤ) * 2 ^ k := by
        rw [div_eq_mul_inv, ← zpow_sub_one₀ two_ne_zero, ← zpow_add₀ two_ne_zero]
        congr 1
        ring
      _ ≤ 2 ^ (-53 : ℤ) * |x| := by gcongr

end Nearest

/-! ## Significands -/

theorem zpow_add_natCast (e : ℤ) (d : ℕ) : (2 : ℚ) ^ (e + d) = 2 ^ e * 2 ^ d := by
  rw [zpow_add₀ two_ne_zero, zpow_natCast]

/-- Where at least 53 bits are left of the last place, or the last place is the least one, the
grid has nothing between the multiples of the last place. -/
theorem OnGrid.eq_mul_or_le {r : ℚ} (hr : OnGrid r) {e : ℤ} {f : ℕ}
    (hwide : e ≤ -1074 ∨ 2 ^ 52 ≤ f) : (∃ n : ℤ, r = n * 2 ^ e) ∨ r ≤ f * 2 ^ e := by
  obtain ⟨n, k, hn, hk, rfl⟩ := hr
  by_cases hle : e ≤ k
  · refine .inl ⟨n * 2 ^ (k - e).toNat, ?_⟩
    have hk' : k = e + (k - e).toNat := by omega
    conv_lhs => rw [hk', zpow_add_natCast]
    push_cast
    ring
  · right
    have hf : (2 : ℚ) ^ 52 ≤ f := by exact_mod_cast hwide.resolve_left (by omega)
    have hn' : (n : ℚ) ≤ 2 ^ 53 := by exact_mod_cast (abs_le.mp hn).2
    have hstep : (2 : ℚ) ^ k * 2 ≤ 2 ^ e := by
      rw [← zpow_add_one₀ two_ne_zero]
      exact zpow_le_zpow_right₀ one_le_two (by omega)
    have hpos : (0 : ℚ) < 2 ^ k := by positivity
    calc (n : ℚ) * 2 ^ k ≤ 2 ^ 53 * 2 ^ k := by gcongr
      _ = 2 ^ 52 * (2 ^ k * 2) := by ring
      _ ≤ f * 2 ^ e := by gcongr

theorem abs_mul_two_zpow_sub (a z : ℚ) (e : ℤ) : |a * 2 ^ e - z * 2 ^ e| = |a - z| * 2 ^ e := by
  have hpos : (0 : ℚ) < 2 ^ e := by positivity
  rw [← sub_mul, abs_mul, abs_of_pos hpos]

section Multiples

variable {z : ℚ} {e : ℤ} {f q : ℕ} (hhalf : |(q : ℚ) - z| ≤ 1 / 2)

include hhalf

/-- Another whole number is at least one half away. -/
theorem half_le_abs_sub {n : ℤ} (hn : n ≠ q) : 1 / 2 ≤ |(n : ℚ) - z| := by
  have hone : (1 : ℚ) ≤ |(n : ℚ) - q| := by exact_mod_cast Int.one_le_abs (sub_ne_zero.mpr hn)
  have htriangle := abs_sub_le (n : ℚ) z q
  rw [abs_sub_comm z] at htriangle
  linarith

theorem abs_sub_le_abs_intCast_sub (n : ℤ) : |(q : ℚ) - z| ≤ |(n : ℚ) - z| := by
  by_cases hn : n = q
  · rw [hn, Int.cast_natCast]
  · exact hhalf.trans (half_le_abs_sub hhalf hn)

variable (hwide : e ≤ -1074 ∨ 2 ^ 52 ≤ f) (hfloor : f ≤ z)

include hwide hfloor

/-- A number of the grid is a multiple of the last place, or it is farther away than the floor. -/
theorem multiple_or_far {r : ℚ} (hr : OnGrid r) :
    (∃ n : ℤ, r = n * 2 ^ e) ∨ |q * 2 ^ e - z * 2 ^ e| < |r - z * 2 ^ e| := by
  rcases hr.eq_mul_or_le hwide with hmultiple | hle
  · exact .inl hmultiple
  rcases hle.eq_or_lt with rfl | hlt
  · exact .inl ⟨f, by rw [Int.cast_natCast]⟩
  · have hpos : (0 : ℚ) < 2 ^ e := by positivity
    have hnear : |(q : ℚ) - z| ≤ |(f : ℚ) - z| := by
      exact_mod_cast abs_sub_le_abs_intCast_sub hhalf f
    right
    calc |q * 2 ^ e - z * 2 ^ e| ≤ |f * 2 ^ e - z * 2 ^ e| := by
          rw [abs_mul_two_zpow_sub, abs_mul_two_zpow_sub]
          gcongr
      _ = z * 2 ^ e - f * 2 ^ e := by
          rw [abs_of_nonpos (sub_nonpos.mpr (by gcongr)), neg_sub]
      _ < z * 2 ^ e - r := by linarith
      _ ≤ |r - z * 2 ^ e| := by rw [abs_sub_comm]; exact le_abs_self (z * 2 ^ e - r)

/-- A multiple of the last place that is at most half of the last place away is the nearest. -/
theorem nearest_of_half : Nearest (z * 2 ^ e) (q * 2 ^ e) := by
  intro r hr
  obtain ⟨n, rfl⟩ | hfar := multiple_or_far hhalf hwide hfloor hr
  · rw [abs_mul_two_zpow_sub, abs_mul_two_zpow_sub]
    have hnear := abs_sub_le_abs_intCast_sub hhalf n
    gcongr
  · exact hfar.le

/-- Another one is only as near if both are half of the last place away, on either side. -/
theorem roundsToEven_of_half (htie : |(q : ℚ) - z| = 1 / 2 → Even q) :
    RoundsToEven (z * 2 ^ e) (q * 2 ^ e) where
  nearest := nearest_of_half hhalf hwide hfloor
  even r hr hne hsame := by
    obtain ⟨n, rfl⟩ | hfar := multiple_or_far hhalf hwide hfloor hr
    · have hpos : (0 : ℚ) < 2 ^ e := by positivity
      have hn : n ≠ q := fun hn => hne (by rw [hn, Int.cast_natCast])
      rw [abs_mul_two_zpow_sub, abs_mul_two_zpow_sub] at hsame
      replace hsame := mul_right_cancel₀ hpos.ne' hsame
      have heq : |(q : ℚ) - z| = 1 / 2 := le_antisymm hhalf (hsame ▸ half_le_abs_sub hhalf hn)
      have hunit : |n - q| = 1 := by
        have htriangle := abs_sub_le (n : ℚ) z q
        rw [abs_sub_comm z, hsame, heq] at htriangle
        have hle : |((n - q : ℤ) : ℚ)| ≤ 1 := by push_cast; linarith
        exact le_antisymm (by exact_mod_cast hle) (Int.one_le_abs (sub_ne_zero.mpr hn))
      have hsquare : ((n : ℚ) - q) * (n - q) = 1 := by
        have h := abs_mul_abs_self (n - q)
        rw [hunit] at h
        exact_mod_cast h.symm
      refine ⟨q * (n - q), ((Int.even_coe_nat q).mpr (htie heq)).mul_right _, ?_⟩
      push_cast
      linear_combination -(q : ℚ) * 2 ^ e * hsquare
    · exact absurd hsame hfar.ne'

end Multiples

/-! ## Rounding a number that is not packed yet -/

/-- What the round bit stands for. -/
def half : Bool → ℚ
  | true => 1 / 2
  | false => 0

/-- What a significand and the bits that are left of the dropped ones say of a number. The sticky
bit says whether there is something beyond the round bit. -/
def StandsFor (em : ExtendedMantissa) (y : ℚ) : Prop :=
  ∃ rest : ℚ, 0 ≤ rest ∧ rest < 1 / 2 ∧ (em.stickyBit = true ↔ rest ≠ 0) ∧
    y = em.mantissa + half em.roundBit + rest

theorem half_mod_two (m : ℕ) : half (m % 2 != 0) = (m % 2 : ℕ) / 2 := by
  rcases Nat.mod_two_eq_zero_or_one m with h | h <;> simp [h, half]

theorem standsFor_exact (m : ℕ) :
    StandsFor (ExtendedMantissa.ofMantissaAndAccuracy m .exact) m :=
  ⟨0, le_rfl, by norm_num, by simp [ExtendedMantissa.ofMantissaAndAccuracy],
    by simp [ExtendedMantissa.ofMantissaAndAccuracy, half]⟩

/-- A quotient and what is known of its remainder. -/
theorem standsFor_quotient (m : ℕ) {n : ℕ} (hn : 0 < n) :
    StandsFor (ExtendedMantissa.ofMantissaAndAccuracy (m / n) (accuracyOfFraction (m % n) n))
      (m / n) := by
  have hpos : (0 : ℚ) < n := by exact_mod_cast hn
  have hparts : (m : ℚ) / n = (m / n : ℕ) + (m % n : ℕ) / n := by
    rw [div_eq_iff hpos.ne', add_mul, div_mul_cancel₀ _ hpos.ne']
    exact_mod_cast (Nat.div_add_mod' m n).symm
  have hlt : ((m % n : ℕ) : ℚ) < n := by exact_mod_cast Nat.mod_lt m hn
  rw [hparts]
  generalize m / n = f
  generalize m % n = r at hlt
  rw [accuracyOfFraction]
  split
  · rename_i hzero
    simpa [hzero] using standsFor_exact f
  · rename_i hne
    have hr : (0 : ℚ) < r := by exact_mod_cast Nat.pos_of_ne_zero hne
    rcases lt_trichotomy (2 * r) n with h | h | h
    · have hcast : 2 * (r : ℚ) < n := by exact_mod_cast h
      rw [compare_lt_iff_lt.mpr h]
      exact ⟨r / n, by positivity, by rw [div_lt_iff₀ hpos]; linarith,
        iff_of_true rfl (by positivity), by simp [ExtendedMantissa.ofMantissaAndAccuracy, half]⟩
    · have hcast : 2 * (r : ℚ) = n := by exact_mod_cast h
      have hhalf : (r : ℚ) / n = 1 / 2 := by rw [← hcast]; field_simp
      rw [compare_eq_iff_eq.mpr h, hhalf]
      exact ⟨0, le_rfl, by norm_num, by simp [ExtendedMantissa.ofMantissaAndAccuracy],
        by simp [ExtendedMantissa.ofMantissaAndAccuracy, half]⟩
    · have hcast : (n : ℚ) < 2 * r := by exact_mod_cast h
      have habove : (1 : ℚ) / 2 < r / n := by rw [lt_div_iff₀ hpos]; linarith
      have hbelow : (r : ℚ) / n < 1 := (div_lt_one hpos).mpr hlt
      rw [compare_gt_iff_gt.mpr h]
      refine ⟨r / n - 1 / 2, by linarith, by linarith,
        iff_of_true rfl (sub_pos.mpr habove).ne', ?_⟩
      simp only [ExtendedMantissa.ofMantissaAndAccuracy, half]
      ring

namespace StandsFor

variable {em : ExtendedMantissa} {y : ℚ}

theorem shiftRightOne (h : StandsFor em y) : StandsFor em.shiftRightOne (y / 2) := by
  obtain ⟨rest, hlow, hhigh, hsticky, rfl⟩ := h
  obtain ⟨m, round, sticky⟩ := em
  have hparts : (m : ℚ) = 2 * (m / 2 : ℕ) + (m % 2 : ℕ) := by
    exact_mod_cast (Nat.div_add_mod m 2).symm
  refine ⟨(half round + rest) / 2, ?_, ?_, ?_, ?_⟩
  · cases round <;> simp only [half] <;> linarith
  · cases round <;> simp only [half] <;> linarith
  · cases round with
    | false => simpa [ExtendedMantissa.shiftRightOne, half] using hsticky
    | true =>
        refine iff_of_true rfl ?_
        simp only [half]
        linarith
  · simp only [ExtendedMantissa.shiftRightOne, half_mod_two]
    rw [hparts]
    ring

/-- The round bit takes up the last bit that is dropped, and the sticky bit all others. -/
theorem shiftRight (h : StandsFor em y) (d : ℕ) : StandsFor (em >>> d) (y / 2 ^ d) := by
  induction d with
  | zero => simpa [HShiftRight.hShiftRight, Nat.repeat] using h
  | succ d ih =>
      have hstep := ih.shiftRightOne
      rw [div_div, ← pow_succ] at hstep
      exact hstep

theorem le (h : StandsFor em y) : em.mantissa ≤ y := by
  obtain ⟨rest, hlow, -, -, rfl⟩ := h
  cases em.roundBit <;> simp only [half] <;> linarith

/-- The rounded significand is off by one half at most. Where it is off by as much, it is even. -/
theorem roundedMantissa (h : StandsFor em y) :
    |em.roundedMantissa - y| ≤ 1 / 2 ∧
      (|em.roundedMantissa - y| = 1 / 2 → Even em.roundedMantissa) := by
  obtain ⟨rest, hlow, hhigh, hsticky, rfl⟩ := h
  obtain ⟨m, round, sticky⟩ := em
  cases round with
  | false =>
      -- Nothing is added, and less than one half is cut off.
      have hsame : ExtendedMantissa.roundedMantissa ⟨m, false, sticky⟩ = m := by
        cases sticky <;> rfl
      have hoff : ((m : ℕ) : ℚ) - (m + half false + rest) = -rest := by
        simp only [half]
        ring
      rw [hsame, hoff, abs_neg, abs_of_nonneg hlow]
      exact ⟨hhigh.le, fun htie => absurd htie hhigh.ne⟩
  | true =>
      cases sticky with
      | false =>
          -- The number is half-way between two whole ones.
          obtain rfl : rest = 0 := by simpa using hsticky
          have heven : ExtendedMantissa.roundedMantissa ⟨m, true, false⟩ = m + m % 2 := rfl
          rw [heven]
          refine ⟨?_, fun _ => Nat.even_iff.mpr (by omega)⟩
          rcases Nat.mod_two_eq_zero_or_one m with h | h
          · rw [h, abs_le]
            constructor <;> push_cast [half] <;> linarith
          · rw [h, abs_le]
            constructor <;> push_cast [half] <;> linarith
      | true =>
          have hpos : 0 < rest := lt_of_le_of_ne hlow (hsticky.mp rfl).symm
          have hup : ExtendedMantissa.roundedMantissa ⟨m, true, true⟩ = m + 1 := rfl
          have hoff : ((m + 1 : ℕ) : ℚ) - (m + half true + rest) = 1 / 2 - rest := by
            push_cast [half]
            ring
          rw [hup, hoff, abs_of_pos (by linarith)]
          exact ⟨by linarith, fun htie => absurd htie (by linarith)⟩

end StandsFor

/-- A significand that is raised to 54 bits by rounding loses the last one again, which is zero. -/
theorem shiftToTargetExponent_of_le {q : ℕ} {e : ℤ} (hq : q ≤ 2 ^ 53) (he : -1074 ≤ e) :
    let last := shiftToTargetExponent Format.binary64 q e .exact
    ((last.1.mantissa : ℚ) * 2 ^ last.2 = q * 2 ^ e) := by
  simp only [mantissa_shiftToTargetExponent, exponent_shiftToTargetExponent, totalExponent]
  rcases Nat.lt_or_eq_of_le hq with hlt | rfl
  · have hlog : q.log2 ≤ 52 := log2_le_of_lt hlt
    have hshift : (max ((q.log2 : ℤ) + 1 + e - 53) (-1074) - e).toNat = 0 := by omega
    have hexp : max e (max ((q.log2 : ℤ) + 1 + e - 53) (-1074)) = e := by omega
    rw [hshift, hexp, Nat.pow_zero, Nat.div_one]
  · have hlog : ((2 ^ 53 : ℕ).log2 : ℤ) = 53 := by rw [Nat.log2_two_pow]; rfl
    have hshift : (max (((2 ^ 53 : ℕ).log2 : ℤ) + 1 + e - 53) (-1074) - e).toNat = 1 := by omega
    have hexp : max e (max (((2 ^ 53 : ℕ).log2 : ℤ) + 1 + e - 53) (-1074)) = e + 1 := by omega
    rw [hshift, hexp, zpow_add_one₀ two_ne_zero]
    norm_num
    ring

/-- How many bits are dropped from a significand. -/
def excess (m : ℕ) (e : ℤ) : ℕ := (max (totalExponent m e - 53) (-1074) - e).toNat

theorem shiftToTargetExponent_eq (m : ℕ) (e : ℤ) (accuracy : Accuracy) :
    shiftToTargetExponent Format.binary64 m e accuracy =
      (ExtendedMantissa.ofMantissaAndAccuracy m accuracy >>> excess m e, e + excess m e) := rfl

/-- Bits are dropped down to 53 or to the least exponent, whichever is reached first. -/
theorem wide_of_excess {m : ℕ} {e : ℤ} (h : excess m e ≠ 0) :
    e + excess m e ≤ -1074 ∨ 2 ^ 52 ≤ m / 2 ^ excess m e := by
  refine or_iff_not_imp_left.mpr fun hhigh => ?_
  have hlog : m.log2 = 52 + excess m e := by
    simp only [excess, totalExponent] at h hhigh ⊢
    omega
  have hm : m ≠ 0 := by
    rintro rfl
    rw [Nat.log2_zero] at hlog
    omega
  rw [Nat.le_div_iff_mul_le (Nat.two_pow_pos _), ← Nat.pow_add, ← hlog]
  exact Nat.log2_self_le hm

/-- A number is shifted twice, since rounding may make its significand too long again. -/
theorem quantity_roundWithAccuracy (s : Sign) (m : ℕ) (e : ℤ) (accuracy : Accuracy) :
    quantity (roundWithAccuracy Format.binary64 s m e accuracy) =
      let first := shiftToTargetExponent Format.binary64 m e accuracy
      let last := shiftToTargetExponent Format.binary64 first.1.roundedMantissa first.2 .exact
      unit s * (last.1.mantissa * 2 ^ last.2) := by
  simp only [roundWithAccuracy]
  split
  · rename_i hzero
    simp [quantity, hzero]
  · rfl

/-- What a significand and its accuracy stand for is rounded to the nearest number, if there is
nothing to be rounded, or if the significand is long enough. -/
theorem roundsToEven_roundWithAccuracy (s : Sign) {m : ℕ} {e : ℤ} {accuracy : Accuracy} {y : ℚ}
    (h : StandsFor (ExtendedMantissa.ofMantissaAndAccuracy m accuracy) y)
    (hwide : y = m ∨ e ≤ -1074 ∨ 2 ^ 52 ≤ m) :
    RoundsToEven (unit s * (y * 2 ^ e))
      (quantity (roundWithAccuracy Format.binary64 s m e accuracy)) := by
  have hlt := mantissa_shiftToTargetExponent_lt m e accuracy
  have hleast : -1074 ≤ e + excess m e := by simp only [excess]; omega
  have hmantissa := mantissa_shiftRight (ExtendedMantissa.ofMantissaAndAccuracy m accuracy)
    (excess m e)
  have hshifted := h.shiftRight (excess m e)
  have hscaled : y * 2 ^ e = y / 2 ^ excess m e * 2 ^ (e + excess m e) := by
    rw [zpow_add_natCast]
    field_simp
  rw [quantity_roundWithAccuracy, hscaled]
  simp only [shiftToTargetExponent_eq m, mantissa_ofMantissaAndAccuracy] at hlt hmantissa ⊢
  generalize ExtendedMantissa.ofMantissaAndAccuracy m accuracy >>> excess m e = em
    at hlt hmantissa hshifted ⊢
  have hup := roundedMantissa_le em
  obtain ⟨hoff, htie⟩ := hshifted.roundedMantissa
  -- The second shift drops nothing but a zero, so what the first one does decides.
  rw [shiftToTargetExponent_of_le (by omega) hleast]
  refine RoundsToEven.unit_mul ?_ s
  by_cases hd : excess m e = 0
  · rw [hd, pow_zero] at hoff htie hshifted hmantissa ⊢
    rw [Nat.div_one] at hmantissa
    rcases hwide with rfl | hwide
    · -- A whole number that is at most one half away from another one is the same.
      obtain rfl : em.roundedMantissa = m := by
        have hlt : |((em.roundedMantissa - m : ℤ) : ℚ)| < 1 := by
          rw [div_one] at hoff
          push_cast
          linarith
        have hzero : (em.roundedMantissa : ℤ) - m = 0 :=
          Int.abs_lt_one_iff.mp (by exact_mod_cast hlt)
        omega
      rw [div_one]
      exact .refl _
    · exact roundsToEven_of_half hoff (by simpa [hmantissa] using hwide) hshifted.le htie
  · exact roundsToEven_of_half hoff (hmantissa ▸ wide_of_excess hd) hshifted.le htie

theorem roundsToEven_exact (s : Sign) (m : ℕ) (e : ℤ) :
    RoundsToEven (unit s * (m * 2 ^ e))
      (quantity (roundWithAccuracy Format.binary64 s m e .exact)) :=
  roundsToEven_roundWithAccuracy s (standsFor_exact m) (.inl rfl)

/-! ## Normal forms -/

/-- The significand is as long as it can be, unless the number has the least exponent. -/
inductive Normalized : UnpackedFloat → Prop
  | zero (s : Sign) : Normalized (.zero s)
  | finite (s : Sign) {m : ℕ} {e : ℤ} (hm : 0 < m) (hlt : m < 2 ^ 53) (hleast : -1074 ≤ e)
      (hlong : 2 ^ 52 ≤ m ∨ e = -1074) : Normalized (.finite s m e hm)

/-- Dropping bits leaves a normal form, if there were enough bits. -/
theorem long_shiftToTargetExponent {m : ℕ} {e : ℤ} (h : 2 ^ 52 ≤ m ∨ e ≤ -1074)
    (accuracy : Accuracy) :
    let shifted := shiftToTargetExponent Format.binary64 m e accuracy
    2 ^ 52 ≤ shifted.1.mantissa ∨ shifted.2 = -1074 := by
  simp only [shiftToTargetExponent_eq, mantissa_shiftRight, mantissa_ofMantissaAndAccuracy]
  by_cases hd : excess m e = 0
  · rw [hd, Nat.pow_zero, Nat.div_one]
    simp only [excess, totalExponent] at hd ⊢
    omega
  · have hwide := wide_of_excess hd
    have hleast : -1074 ≤ e + excess m e := by simp only [excess]; omega
    omega

theorem normalized_roundWithAccuracy (s : Sign) {m : ℕ} {e : ℤ} (h : 2 ^ 52 ≤ m ∨ e ≤ -1074)
    (accuracy : Accuracy) : Normalized (roundWithAccuracy Format.binary64 s m e accuracy) := by
  have hfirst := long_shiftToTargetExponent h accuracy
  have he := exponent_shiftToTargetExponent m e accuracy
  simp only [roundWithAccuracy]
  generalize shiftToTargetExponent Format.binary64 m e accuracy = first at hfirst he
  have hup := le_roundedMantissa first.1
  have hlong := long_shiftToTargetExponent (m := first.1.roundedMantissa) (e := first.2)
    (by omega) .exact
  have hlt := mantissa_shiftToTargetExponent_lt first.1.roundedMantissa first.2 .exact
  have hleast := exponent_shiftToTargetExponent first.1.roundedMantissa first.2 .exact
  split
  · exact .zero s
  · exact .finite s _ hlt (by omega) hlong

theorem normalized_round (s : Sign) (m : ℕ) (hm : 0 < m) (e : ℤ) :
    Normalized (UnpackedFloat.round Format.binary64 s m e) := by
  simp only [UnpackedFloat.round, decreaseExponent]
  refine normalized_roundWithAccuracy s ?_ .exact
  rw [targetExponent_eq, totalExponent]
  refine or_iff_not_imp_right.mpr fun hhigh => ?_
  have hlog : 52 ≤ (m <<< (e - max ((m.log2 : ℤ) + 1 + e - 53) (-1074)).toNat).log2 := by
    rw [log2_shiftLeft hm]
    omega
  exact (Nat.le_log2 (by simp [Nat.shiftLeft_eq]; omega)).mp hlog

theorem roundsToEven_round (s : Sign) (m : ℕ) (e : ℤ) :
    RoundsToEven (unit s * (m * 2 ^ e)) (quantity (UnpackedFloat.round Format.binary64 s m e)) := by
  simp only [UnpackedFloat.round, decreaseExponent]
  generalize (e - Format.binary64.targetExponent (totalExponent m e)).toNat = d
  have hsame : (m : ℚ) * 2 ^ e = ((m <<< d : ℕ) : ℚ) * 2 ^ (e - d : ℤ) := by
    rw [Nat.shiftLeft_eq, zpow_sub₀ two_ne_zero, zpow_natCast]
    push_cast
    field_simp
  rw [hsame]
  exact roundsToEven_exact s _ _

/-- The sum of two significands at one exponent. -/
theorem roundsToEven_normalize (n e : ℤ) (zeroSign : Sign) :
    RoundsToEven (n * 2 ^ e) (quantity (UnpackedFloat.normalize Format.binary64 n e zeroSign)) ∧
      Normalized (UnpackedFloat.normalize Format.binary64 n e zeroSign) := by
  rw [UnpackedFloat.normalize]
  rcases lt_trichotomy n 0 with hn | rfl | hn
  · have hcompare : compare n 0 = .lt := Int.compare_eq_lt.mpr hn
    have hcast : (((-n).toNat : ℕ) : ℚ) = -n := by
      exact_mod_cast (Int.toNat_of_nonneg (by omega : 0 ≤ -n))
    have h := roundsToEven_round .negative (-n).toNat e
    simp only [unit, hcast] at h
    rw [hcompare]
    exact ⟨by simpa using h, normalized_round _ _ (by omega) e⟩
  · have hcompare : compare (0 : ℤ) 0 = .eq := Int.compare_eq_eq.mpr rfl
    rw [hcompare]
    exact ⟨by simpa [quantity] using RoundsToEven.refl 0, .zero zeroSign⟩
  · have hcompare : compare n 0 = .gt := Int.compare_eq_gt.mpr hn
    have hcast : ((n.toNat : ℕ) : ℚ) = n := by
      exact_mod_cast (Int.toNat_of_nonneg hn.le)
    have h := roundsToEven_round .positive n.toNat e
    simp only [unit, hcast] at h
    rw [hcompare]
    exact ⟨by simpa using h, normalized_round _ _ (by omega) e⟩

/-! ## Operations before packing -/

theorem cast_apply (s : Sign) (n : ℤ) : ((s.apply n : ℤ) : ℚ) = unit s * n := by
  cases s <;> simp [Sign.apply, unit]

/-- A number at a lower exponent. -/
theorem quantity_decreaseExponent (s : Sign) {m : ℕ} {e k : ℤ} (hm : 0 < m) (hk : k ≤ e) :
    quantity (.finite s m e hm) = (s.apply (m <<< (e - k).toNat : ℕ) : ℤ) * 2 ^ k := by
  have he : e = k + (e - k).toNat := by omega
  rw [cast_apply, Nat.shiftLeft_eq, quantity]
  conv_lhs => rw [he, zpow_add_natCast]
  push_cast
  ring

theorem Normalized.onGrid {u : UnpackedFloat} (h : Normalized u) : OnGrid (quantity u) := by
  cases h with
  | zero s => exact ⟨0, 0, by decide, by decide, by simp [quantity]⟩
  | @finite s m e hm hlt hleast hlong =>
      refine ⟨s.apply m, e, ?_, hleast, by rw [cast_apply, quantity]; push_cast; ring⟩
      cases s <;> simp [Sign.apply] <;> omega

@[simp] theorem quantity_neg (u : UnpackedFloat) : quantity u.neg = -quantity u := by
  cases u with
  | finite s m e hm => cases s <;> simp [UnpackedFloat.neg, quantity, unit]
  | _ => simp [UnpackedFloat.neg, quantity]

theorem isFinite_neg (u : UnpackedFloat) : u.neg.isFinite = u.isFinite := by
  cases u <;> rfl

theorem Normalized.neg {u : UnpackedFloat} (h : Normalized u) : Normalized u.neg := by
  cases h with
  | zero s => exact .zero (-s)
  | finite s hm hlt hleast hlong => exact .finite (-s) hm hlt hleast hlong

@[simp] theorem quantity_zero (s : Sign) : quantity (.zero s) = 0 := rfl

theorem unit_mul_unit (s s' : Sign) : unit (s * s') = unit s * unit s' := by
  cases s <;> cases s' <;> simp [unit]

section Operations

variable {u v : UnpackedFloat}

theorem roundsToEven_add (hu : Normalized u) (hv : Normalized v) :
    RoundsToEven (quantity u + quantity v) (quantity (UnpackedFloat.add Format.binary64 u v)) ∧
      Normalized (UnpackedFloat.add Format.binary64 u v) := by
  cases hu with
  | zero s =>
      rw [quantity_zero, zero_add]
      cases hv with
      | zero s' =>
          simp only [UnpackedFloat.add]
          split <;> exact ⟨.refl 0, .zero _⟩
      | finite s' hm' hlt' hleast' hlong' =>
          exact ⟨.refl _, .finite s' hm' hlt' hleast' hlong'⟩
  | @finite s m e hm hlt hleast hlong =>
      cases hv with
      | zero s' =>
          rw [quantity_zero, add_zero]
          exact ⟨.refl _, .finite s hm hlt hleast hlong⟩
      | @finite s' m' e' hm' =>
          rw [quantity_decreaseExponent s hm (min_le_left e e'),
            quantity_decreaseExponent s' hm' (min_le_right e e'), ← add_mul, ← Int.cast_add]
          exact roundsToEven_normalize _ _ _

theorem sub_eq_add (u v : UnpackedFloat) : UnpackedFloat.sub Format.binary64 u v =
    UnpackedFloat.add Format.binary64 u v.neg := by
  cases u <;> cases v <;> try rfl
  rename_i s m e hm s' m' e' hm'
  cases s' with
  | positive => rfl
  | negative => simp [UnpackedFloat.sub, UnpackedFloat.add, UnpackedFloat.neg, Sign.apply]

theorem roundsToEven_mul (hu : Normalized u) (hv : Normalized v) :
    RoundsToEven (quantity u * quantity v) (quantity (UnpackedFloat.mul Format.binary64 u v)) ∧
      Normalized (UnpackedFloat.mul Format.binary64 u v) := by
  cases hu with
  | zero s =>
      rw [quantity_zero, zero_mul]
      cases hv <;> exact ⟨.refl 0, .zero _⟩
  | @finite s m e hm hlt hleast hlong =>
      cases hv with
      | zero s' =>
          rw [quantity_zero, mul_zero]
          exact ⟨.refl 0, .zero _⟩
      | @finite s' m' e' hm' hlt' hleast' hlong' =>
          have hproduct : quantity (.finite s m e hm) * quantity (.finite s' m' e' hm') =
              unit (s * s') * ((m * m' : ℕ) * 2 ^ (e + e')) := by
            rw [quantity, quantity, unit_mul_unit, zpow_add₀ two_ne_zero]
            push_cast
            ring
          rw [hproduct]
          refine ⟨roundsToEven_exact _ _ _, normalized_roundWithAccuracy _ ?_ _⟩
          rcases hlong with hlong | rfl
          · exact .inl (hlong.trans (Nat.le_mul_of_pos_right m hm'))
          · rcases hlong' with hlong' | rfl
            · exact .inl (hlong'.trans (Nat.le_mul_of_pos_left m' hm))
            · exact .inr (by decide)

theorem unit_div_unit (s s' : Sign) : unit (s / s') = unit s / unit s' := by
  cases s <;> cases s' <;> simp [unit] <;> rfl

/-- A quotient is taken at an exponent that is low enough for 53 bits, or at the least one. -/
theorem wide_divCore {m m' : ℕ} (e e' : ℤ) (hm : 0 < m) (hm' : 0 < m') :
    let quotient := divCore Format.binary64 m e m' e'
    quotient.2.1 ≤ -1074 ∨ 2 ^ 52 ≤ quotient.1 := by
  simp only [divCore, targetExponent_eq, totalExponent]
  refine or_iff_not_imp_left.mpr fun hhigh => ?_
  generalize hd : (e - e' - min (e - e')
    (max ((m.log2 : ℤ) + 1 + e - ((m'.log2 : ℤ) + 1 + e') - 53) (-1074))).toNat = d
  rw [Nat.shiftLeft_eq, Nat.le_div_iff_mul_le hm']
  calc 2 ^ 52 * m' ≤ 2 ^ 52 * 2 ^ (m'.log2 + 1) := Nat.mul_le_mul_left _ Nat.lt_log2_self.le
    _ = 2 ^ (52 + (m'.log2 + 1)) := (Nat.pow_add 2 52 _).symm
    _ ≤ 2 ^ (m.log2 + d) := Nat.pow_le_pow_right two_pos (by omega)
    _ = 2 ^ m.log2 * 2 ^ d := Nat.pow_add 2 _ _
    _ ≤ m * 2 ^ d := Nat.mul_le_mul_right _ (Nat.log2_self_le hm.ne')

/-- The quotient of two significands, scaled so that it is long enough. -/
theorem divCore_scaled (m m' : ℕ) (e e' : ℤ) :
    let d := (e - e' - min (e - e') (Format.binary64.targetExponent
      (totalExponent m e - totalExponent m' e'))).toNat
    (m : ℚ) * 2 ^ e / (m' * 2 ^ e') =
      ((m <<< d : ℕ) : ℚ) / m' * 2 ^ (divCore Format.binary64 m e m' e').2.1 := by
  simp only [divCore]
  generalize Format.binary64.targetExponent _ = target
  have hsplit : e = e' + min (e - e') target + (e - e' - min (e - e') target).toNat := by omega
  conv_lhs => rw [hsplit, zpow_add_natCast, zpow_add₀ two_ne_zero]
  rw [Nat.shiftLeft_eq]
  push_cast
  field_simp

theorem roundsToEven_div (hu : Normalized u) (hv : Normalized v) (hne : quantity v ≠ 0) :
    RoundsToEven (quantity u / quantity v) (quantity (UnpackedFloat.div Format.binary64 u v)) ∧
      Normalized (UnpackedFloat.div Format.binary64 u v) := by
  cases hv with
  | zero s' => exact absurd rfl hne
  | @finite s' m' e' hm' hlt' hleast' hlong' =>
      cases hu with
      | zero s =>
          rw [quantity_zero, zero_div]
          exact ⟨.refl 0, .zero _⟩
      | @finite s m e hm hlt hleast hlong =>
          have hwide := wide_divCore e e' hm hm'
          have hquotient : quantity (.finite s m e hm) / quantity (.finite s' m' e' hm') =
              unit (s / s') * (m * 2 ^ e / (m' * 2 ^ e')) := by
            rw [quantity, quantity, unit_div_unit, div_mul_div_comm]
          rw [hquotient, divCore_scaled]
          exact ⟨roundsToEven_roundWithAccuracy _ (standsFor_quotient _ hm') (.inr hwide),
            normalized_roundWithAccuracy _ hwide.symm _⟩

end Operations

/-! ## Comparing -/

section Comparing

variable {m m' : ℕ} {e e' : ℤ}

/-- A normal form with a higher exponent is greater. -/
theorem lt_of_exponent_lt (hlt : m < 2 ^ 53) (hleast : -1074 ≤ e)
    (hlong' : 2 ^ 52 ≤ m' ∨ e' = -1074) (h : e < e') : (m : ℚ) * 2 ^ e < m' * 2 ^ e' := by
  have hm : (m : ℚ) < 2 ^ 53 := by exact_mod_cast hlt
  have hm' : (2 : ℚ) ^ 52 ≤ m' := by exact_mod_cast hlong'.resolve_right (by omega)
  have hstep : (2 : ℚ) ^ e * 2 ≤ 2 ^ e' := by
    rw [← zpow_add_one₀ two_ne_zero]
    exact zpow_le_zpow_right₀ one_le_two (by omega)
  have hpos : (0 : ℚ) < 2 ^ e := by positivity
  calc (m : ℚ) * 2 ^ e < 2 ^ 53 * 2 ^ e := by gcongr
    _ = 2 ^ 52 * (2 ^ e * 2) := by ring
    _ ≤ m' * 2 ^ e' := by gcongr

/-- Normal forms are ordered by their exponents first. -/
theorem compare_significands (hlt : m < 2 ^ 53) (hleast : -1074 ≤ e)
    (hlong : 2 ^ 52 ≤ m ∨ e = -1074) (hlt' : m' < 2 ^ 53) (hleast' : -1074 ≤ e')
    (hlong' : 2 ^ 52 ≤ m' ∨ e' = -1074) :
    (compare e e').then (compare m m') = compare ((m : ℚ) * 2 ^ e) (m' * 2 ^ e') := by
  rcases lt_trichotomy e e' with h | rfl | h
  · rw [compare_lt_iff_lt.mpr h, compare_lt_iff_lt.mpr (lt_of_exponent_lt hlt hleast hlong' h)]
    rfl
  · have hpos : (0 : ℚ) < 2 ^ e := by positivity
    rw [compare_eq_iff_eq.mpr rfl]
    rcases lt_trichotomy m m' with h | rfl | h
    · have hcast : (m : ℚ) < m' := by exact_mod_cast h
      rw [compare_lt_iff_lt.mpr h, compare_lt_iff_lt.mpr (mul_lt_mul_of_pos_right hcast hpos)]
      rfl
    · rw [compare_eq_iff_eq.mpr rfl, compare_eq_iff_eq.mpr rfl]
      rfl
    · have hcast : (m' : ℚ) < m := by exact_mod_cast h
      rw [compare_gt_iff_gt.mpr h, compare_gt_iff_gt.mpr (mul_lt_mul_of_pos_right hcast hpos)]
      rfl
  · rw [compare_gt_iff_gt.mpr h, compare_gt_iff_gt.mpr (lt_of_exponent_lt hlt' hleast' hlong h)]
    rfl

theorem compare_neg (x y : ℚ) : compare (-x) (-y) = (compare x y).swap := by
  rcases lt_trichotomy x y with h | rfl | h
  · rw [compare_lt_iff_lt.mpr h, compare_gt_iff_gt.mpr (neg_lt_neg h)]
    rfl
  · rw [compare_eq_iff_eq.mpr rfl, compare_eq_iff_eq.mpr rfl]
    rfl
  · rw [compare_gt_iff_gt.mpr h, compare_lt_iff_lt.mpr (neg_lt_neg h)]
    rfl

theorem quantity_finite_pos {m : ℕ} {e : ℤ} (hm : 0 < m) :
    0 < quantity (.finite .positive m e hm) := by
  simp only [quantity, unit, one_mul]
  positivity

theorem quantity_finite_neg {m : ℕ} {e : ℤ} (hm : 0 < m) :
    quantity (.finite .negative m e hm) < 0 := by
  have hpos : (0 : ℚ) < m * 2 ^ e := by positivity
  simp only [quantity, unit]
  linarith

theorem quantity_finite_ne_zero (s : Sign) {m : ℕ} {e : ℤ} (hm : 0 < m) :
    quantity (.finite s m e hm) ≠ 0 := by
  cases s with
  | positive => exact (quantity_finite_pos hm).ne'
  | negative => exact (quantity_finite_neg hm).ne

/-- Finite numbers compare as the numbers that they stand for. -/
theorem compare_eq {u v : UnpackedFloat} (hu : Normalized u) (hv : Normalized v) :
    u.compare v = some (compare (quantity u) (quantity v)) := by
  cases hu with
  | zero s =>
      cases hv with
      | zero s' => rfl
      | finite s' hm' =>
          cases s' with
          | positive => exact congrArg some (compare_lt_iff_lt.mpr (quantity_finite_pos hm')).symm
          | negative => exact congrArg some (compare_gt_iff_gt.mpr (quantity_finite_neg hm')).symm
  | finite s hm hlt hleast hlong =>
      cases hv with
      | zero s' =>
          cases s with
          | positive => exact congrArg some (compare_gt_iff_gt.mpr (quantity_finite_pos hm)).symm
          | negative => exact congrArg some (compare_lt_iff_lt.mpr (quantity_finite_neg hm)).symm
      | finite s' hm' hlt' hleast' hlong' =>
          have hsizes := compare_significands hlt hleast hlong hlt' hleast' hlong'
          cases s <;> cases s'
          · simp only [quantity, unit, neg_one_mul, compare_neg, ← hsizes]
            rfl
          · exact congrArg some (compare_lt_iff_lt.mpr
              ((quantity_finite_neg hm).trans (quantity_finite_pos hm'))).symm
          · exact congrArg some (compare_gt_iff_gt.mpr
              ((quantity_finite_neg hm').trans (quantity_finite_pos hm))).symm
          · simp only [quantity, unit, one_mul, ← hsizes]
            rfl

end Comparing

/-! ## Packing -/

/-- The leading bit of a significand, which is not packed. -/
theorem toNat_cons (fraction : BitVec 52) : (1#1 ++ fraction).toNat = 2 ^ 52 + fraction.toNat := by
  rw [BitVec.toNat_append, ← Nat.shiftLeft_add_eq_or_of_lt fraction.isLt]
  rfl

/-- What is read from parts whose exponent field is neither full nor empty. -/
theorem unpack_packComponents {s : Sign} {field : BitVec 11} {fraction : BitVec 52}
    (hfull : field ≠ -1#11) (hempty : field ≠ 0#11) :
    UnpackedFloat.unpack Format.binary64 (packComponents Format.binary64 s field fraction) =
      .finite s (2 ^ 52 + fraction.toNat) (field.toNat - 1075) (by positivity) := by
  simp only [UnpackedFloat.unpack, unpackExponent_packComponents, unpackMantissa_packComponents,
    unpackSign_packComponents, Sign.ofBitVec_toBitVec, if_neg hfull, if_neg hempty, toNat_cons]
  rfl

/-- An empty exponent field stands for the least exponent. -/
theorem unpack_packComponents_zero {s : Sign} {fraction : BitVec 52} (h : 0 < fraction.toNat) :
    UnpackedFloat.unpack Format.binary64 (packComponents Format.binary64 s 0#11 fraction) =
      .finite s fraction.toNat (-1074) h := by
  have hfraction : fraction ≠ 0#52 := by
    rintro rfl
    simp at h
  have hfull : 0#11 ≠ -1#11 := by decide
  simp only [UnpackedFloat.unpack, unpackExponent_packComponents, unpackMantissa_packComponents,
    unpackSign_packComponents, Sign.ofBitVec_toBitVec, if_neg hfull, if_true, dif_neg hfraction]
  rfl

/-- A normal form in range is read back as it was. -/
theorem unpack_pack {u : UnpackedFloat} (hu : Normalized u) (h : ExponentAtMost 971 u) :
    UnpackedFloat.unpack Format.binary64 (UnpackedFloat.pack Format.binary64 u) = u := by
  cases hu with
  | zero s => exact unpack_packedZero
  | @finite s m e hm hlt hleast hlong =>
      have he : e ≤ 971 := by cases h; assumption
      have hlog : m.log2 + 1 = 1 + 52 ↔ 2 ^ 52 ≤ m := by
        have hle : m.log2 ≤ 52 := log2_le_of_lt hlt
        rw [← Nat.le_log2 hm.ne']
        omega
      rw [pack_finite, if_neg (by omega)]
      simp only [hlog]
      -- A significand of 53 bits has a leading bit that is dropped; a shorter one is kept whole.
      split
      · rename_i hlarge
        have hfield : (BitVec.ofNat 11 (e + 1075).toNat).toNat = (e + 1075).toNat := by
          rw [BitVec.toNat_ofNat, Nat.mod_eq_of_lt (by omega)]
        have hfraction : (BitVec.ofNat 52 m).toNat = m - 2 ^ 52 := by
          rw [BitVec.toNat_ofNat]
          omega
        generalize BitVec.ofNat 11 (e + 1075).toNat = field at hfield
        rw [unpack_packComponents]
        · congr 1
          · omega
          · omega
        · rintro rfl
          have h2047 : ((-1#11 : BitVec 11)).toNat = 2047 := rfl
          omega
        · rintro rfl
          have h0 : ((0#11 : BitVec 11)).toNat = 0 := rfl
          omega
      · rename_i hsmall
        have hfraction : (BitVec.ofNat 52 m).toNat = m := by
          rw [BitVec.toNat_ofNat, Nat.mod_eq_of_lt (by omega)]
        rw [unpack_packComponents_zero (by omega)]
        congr 1
        omega

/-- How the parts of a finite number are read: as a zero, with the least exponent, or with a leading
bit that is not packed. -/
inductive ReadAs (s : Sign) (field fraction : ℕ) : UnpackedFloat → Prop
  | zero (hfield : field = 0) (hfraction : fraction = 0) : ReadAs s field fraction (.zero s)
  | least (hfield : field = 0) (hfraction : 0 < fraction) :
      ReadAs s field fraction (.finite s fraction (-1074) hfraction)
  | leading (hfield : 0 < field) (hfull : field < 2047) (hm : 0 < 2 ^ 52 + fraction) :
      ReadAs s field fraction (.finite s (2 ^ 52 + fraction) (field - 1075) hm)

theorem readAs_unpack {b : BitVec 64}
    (h : (UnpackedFloat.unpack Format.binary64 b).isFinite = true) :
    ReadAs (Sign.ofBitVec (@unpackSign Format.binary64 b))
      (@unpackExponent Format.binary64 b).toNat (@unpackMantissa Format.binary64 b).toNat
      (UnpackedFloat.unpack Format.binary64 b) := by
  have hbias : (Format.binary64.exponentBias : Int) +
      (Format.binary64.mantissaBitsWithoutImplicit : Nat) = 1075 := rfl
  simp only [UnpackedFloat.unpack] at h ⊢
  split at h
  · split at h <;> simp [UnpackedFloat.isFinite] at h
  · rename_i hfull
    simp only [if_neg hfull]
    split
    · rename_i hempty
      have hfield : (@unpackExponent Format.binary64 b).toNat = 0 := by rw [hempty]; rfl
      split
      · rename_i h0
        exact .zero hfield (by rw [h0]; rfl)
      · simp only [hfield, hbias]
        exact .least rfl _
    · rename_i hempty
      have hlead := toNat_cons (@unpackMantissa Format.binary64 b)
      have hpos : 0 < (@unpackExponent Format.binary64 b).toNat :=
        Nat.pos_of_ne_zero fun h0 => hempty (BitVec.eq_of_toNat_eq h0)
      have hlt : (@unpackExponent Format.binary64 b).toNat < 2 ^ 11 := BitVec.isLt _
      have hne : (@unpackExponent Format.binary64 b).toNat ≠ 2047 := fun h2047 =>
        hfull (BitVec.eq_of_toNat_eq h2047)
      simp only [hbias, hlead]
      exact .leading hpos (by omega) _

section Reading

variable {s : Sign} {field fraction : ℕ} {u : UnpackedFloat}

/-- Finite numbers are in normal form. -/
theorem ReadAs.normalized (h : ReadAs s field fraction u) (hfraction : fraction < 2 ^ 52) :
    Normalized u := by
  cases h with
  | zero => exact .zero s
  | least => exact .finite s _ (by omega) le_rfl (.inr rfl)
  | leading => exact .finite s _ (by omega) (by omega) (.inl (Nat.le_add_right _ _))

/-- Finite numbers are in range. -/
theorem ReadAs.small (h : ReadAs s field fraction u) (hfraction : fraction < 2 ^ 52) :
    Small 971 u := by
  cases h with
  | zero => exact .zero s
  | least => exact .finite s _ (by omega) (by decide)
  | leading => exact .finite s _ (by omega) (by omega)

/-- The number that the parts stand for. An empty field means the same exponent as a field of one,
but without the leading bit. -/
theorem ReadAs.quantity_eq (h : ReadAs s field fraction u) :
    quantity u = unit s *
      ((if field = 0 then fraction else 2 ^ 52 + fraction : ℕ) *
        2 ^ ((max field 1 : ℕ) - 1075 : ℤ)) := by
  cases h with
  | zero hfield hfraction => simp [quantity, hfield, hfraction]
  | least hfield => simp [quantity, hfield]
  | leading hfield => rw [quantity, if_neg hfield.ne', Nat.max_eq_left hfield]

/-- Only one sign, field and fraction are read as a number. -/
theorem ReadAs.unique {s' : Sign} {field' fraction' : ℕ} (h : ReadAs s field fraction u)
    (h' : ReadAs s' field' fraction' u) (hfraction : fraction < 2 ^ 52)
    (hfraction' : fraction' < 2 ^ 52) : s = s' ∧ field = field' ∧ fraction = fraction' := by
  generalize hu : u = v at h'
  cases h <;> cases h' <;> simp only [reduceCtorEq, UnpackedFloat.zero.injEq,
    UnpackedFloat.finite.injEq] at hu
  · exact ⟨hu, by omega, by omega⟩
  · exact ⟨hu.1, by omega, by omega⟩
  · omega
  · omega
  · exact ⟨hu.1, by omega, by omega⟩

end Reading

/-- The largest finite number. -/
def largest : ℚ := (2 ^ 53 - 1) * 2 ^ (971 : ℤ)

theorem onGrid_largest : OnGrid largest := by
  have hcast : ((2 ^ 53 - 1 : ℤ) : ℚ) = 2 ^ 53 - 1 := by norm_num
  exact ⟨2 ^ 53 - 1, 971, by decide, by decide, by rw [hcast, largest]⟩

theorem largest_lt : largest < 2 ^ (1024 : ℤ) := by
  have hpos : (0 : ℚ) < 2 ^ (971 : ℤ) := by positivity
  calc largest < 2 ^ 53 * 2 ^ (971 : ℤ) := mul_lt_mul_of_pos_right (by norm_num) hpos
    _ = 2 ^ (1024 : ℤ) := by rw [← zpow_natCast, ← zpow_add₀ two_ne_zero]; rfl

theorem two_zpow_le_largest : (2 : ℚ) ^ (1023 : ℤ) ≤ largest := by
  have hpos : (0 : ℚ) < 2 ^ (971 : ℤ) := by positivity
  calc (2 : ℚ) ^ (1023 : ℤ) = 2 ^ 52 * 2 ^ (971 : ℤ) := by
        rw [← zpow_natCast, ← zpow_add₀ two_ne_zero]; rfl
    _ ≤ largest := mul_le_mul_of_nonneg_right (by norm_num) hpos.le

theorem abs_quantity_finite (s : Sign) {m : ℕ} (e : ℤ) (hm : 0 < m) :
    |quantity (.finite s m e hm)| = m * 2 ^ e := by
  have hpos : (0 : ℚ) < m * 2 ^ e := by positivity
  rw [quantity, abs_mul, abs_of_pos hpos]
  cases s <;> simp [unit]

/-- Numbers in range are not larger than the largest one. -/
theorem abs_quantity_le_largest {u : UnpackedFloat} (hu : Small 971 u) :
    |quantity u| ≤ largest := by
  cases hu with
  | zero s =>
      rw [quantity_zero, abs_zero]
      exact le_trans (by positivity) two_zpow_le_largest
  | @finite s m e hm hlt he =>
      have hm' : (m : ℚ) ≤ 2 ^ 53 - 1 := by
        rw [le_sub_iff_add_le]
        exact_mod_cast hlt
      have he' : (2 : ℚ) ^ e ≤ 2 ^ (971 : ℤ) := zpow_le_zpow_right₀ one_le_two he
      rw [abs_quantity_finite]
      exact mul_le_mul hm' he' (by positivity) (by norm_num)

/-- What is rounded to a normal form is in range if it is not larger than the largest number. -/
theorem exponentAtMost_of_rounds {u : UnpackedFloat} {exact : ℚ} (hu : Normalized u)
    (hr : Rounds exact (quantity u)) (hsize : |exact| ≤ largest) : ExponentAtMost 971 u := by
  cases hu with
  | zero s => exact .zero s
  | @finite s m e hm hlt hleast hlong =>
      refine .finite s hm ?_
      -- Otherwise its size would be above the bound, and rounding does not pass that.
      by_contra hhigh
      have hquantity := hr.abs_le_of_onGrid onGrid_largest hsize
      have hm' : (2 : ℚ) ^ 52 ≤ m := by exact_mod_cast hlong.resolve_right (by omega)
      have he : (2 : ℚ) ^ (972 : ℤ) ≤ 2 ^ e := zpow_le_zpow_right₀ one_le_two (by omega)
      have hlarge : largest < m * 2 ^ e := by
        calc largest < 2 ^ (1024 : ℤ) := largest_lt
          _ = 2 ^ 52 * 2 ^ (972 : ℤ) := by rw [← zpow_natCast, ← zpow_add₀ two_ne_zero]; rfl
          _ ≤ m * 2 ^ e := by gcongr
      exact absurd (abs_quantity_finite s e hm ▸ hquantity) (not_le.mpr hlarge)

theorem isFinite_of_isInf {u : UnpackedFloat} (h : u.isInf = true) : u.isFinite = false := by
  cases u <;> first | rfl | cases h

/-- What is packed as a finite number is in range. -/
theorem exponentAtMost_of_isFinite {u : UnpackedFloat} (hu : Normalized u)
    (h : (UnpackedFloat.unpack Format.binary64
      (UnpackedFloat.pack Format.binary64 u)).isFinite = true) : ExponentAtMost 971 u := by
  cases hu with
  | zero s => exact .zero s
  | @finite s m e hm hlt hleast hlong =>
      refine .finite s hm ?_
      by_contra hhigh
      rw [pack_finite, if_pos (by omega), unpack_packedInfinity] at h
      cases h

end Binary64

end Inbetween
