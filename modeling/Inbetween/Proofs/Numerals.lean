import Inbetween.Decimal.Layout
import Inbetween.Proofs.Texts

/-!
# Written numerals

Whatever the number and the layout, the numeral that is written follows the rules of JSON: the
shortest decimal of a number has a leading zero only if it is zero, and then it is a single digit.
-/

namespace Inbetween.Decimal

theorem digits_zero : digits 0 = [Digit.zero] := by
  rw [digits]
  rfl

theorem digits_ne_nil (n : Nat) : digits n ≠ [] := by
  rw [digits]
  split <;> simp

theorem eq_zero_of_digits {n : Nat} {ds : List Digit} (h : digits n = Digit.zero :: ds) :
    n = 0 := by
  induction n using Nat.strongRecOn generalizing ds with
  | ind n ih =>
      rw [digits] at h
      by_cases hn : n < 10
      · rw [if_pos hn] at h
        have hhead : n % 10 = 0 := congrArg Fin.val (List.cons.inj h).1
        omega
      · rw [if_neg hn] at h
        cases hrest : digits (n / 10) with
        | nil => exact absurd hrest (digits_ne_nil _)
        | cons d rest =>
            rw [hrest] at h
            obtain rfl : d = Digit.zero := (List.cons.inj h).1
            have := ih (n / 10) (by omega) hrest
            omega

/-! ## Shortest decimals -/

namespace Interval

theorem unitStep_pos (i : Interval) (k : Int) : 0 < i.unitStep k :=
  Nat.mul_pos (Nat.pow_pos (by decide)) (Nat.pow_pos (by decide))

theorem pos_of_holds {i : Interval} (hi : 0 < i.lowest) {k : Int} {c : Nat}
    (h : i.holds k c = true) : 0 < c := by
  have hlow : 0 < i.lowest * i.unitStep k := Nat.mul_pos hi (i.unitStep_pos k)
  refine Nat.pos_of_ne_zero ?_
  rintro rfl
  cases hclosed : i.closed
  · simp [holds, hclosed] at h
  · simp only [holds, hclosed, Nat.zero_mul, if_true, Bool.and_eq_true, decide_eq_true_eq] at h
    omega

theorem pos_of_nearest? {i : Interval} (hi : 0 < i.lowest) {tie : Tie} {k : Int} {d : Scaled}
    (h : i.nearest? tie k = some d) : 0 < d.coefficient := by
  simp only [nearest?] at h
  split at h
  · cases h
  · rename_i hc _
    cases h
    exact pos_of_holds hi hc
  · cases h
    exact Nat.succ_pos _
  · rename_i hc _
    cases h
    exact iteInduction (motive := (0 < ·)) (fun _ => Nat.succ_pos _) fun _ => pos_of_holds hi hc

theorem lowest_pos {x : Float} (h : Binary64.significand x ≠ 0) : 0 < (around x).lowest := by
  simp only [around]
  split <;> omega

end Interval

/-- The coefficient zero has no scale. -/
theorem scale_shortest {tie : Tie} {x : Float} (h : (shortest tie x).coefficient = 0) :
    (shortest tie x).scale = 0 := by
  rw [shortest] at h ⊢
  split
  · rfl
  · rename_i hx
    simp only [if_neg hx] at h
    cases hfound : (List.range 22).findSome? fun (n : Nat) =>
        (Interval.around x).nearest? tie ((Interval.around x).ceilingPower - n) with
    | none =>
        simp only [hfound, Option.getD_none]
    | some d =>
        rw [hfound, Option.getD_some] at h
        obtain ⟨n, -, hnearest⟩ := List.exists_of_findSome?_eq_some hfound
        exact absurd h (Interval.pos_of_nearest? (Interval.lowest_pos hx) hnearest).ne'

/-! ## Layouts -/

namespace Layout

variable (l : Layout) (negative : Bool)

theorem proper_place {c : Nat} {scale : Int} (h : c = 0 → scale = 0) :
    (l.place negative (digits c) scale).Proper := by
  have hhead : ∀ ds, digits c = Digit.zero :: ds → scale = 0 ∧ ds = [] := by
    intro ds hds
    obtain rfl := eq_zero_of_digits hds
    exact ⟨h rfl, (List.cons.inj (digits_zero.symm.trans hds)).2.symm⟩
  simp only [place]
  split
  · refine ⟨by simp [digits_ne_nil], fun rest hrest => ?_, by simp⟩
    cases hds : digits c with
    | nil => exact absurd hds (digits_ne_nil c)
    | cons d ds =>
        simp only [hds, List.cons_append, List.cons.injEq] at hrest
        obtain ⟨rfl, rfl⟩ := hrest
        obtain ⟨rfl, rfl⟩ := hhead ds hds
        rfl
  · rename_i hscale
    split
    · rename_i hbehind
      refine ⟨?_, fun rest hrest => ?_, by simp⟩
      · simp only [ne_eq, List.take_eq_nil_iff, digits_ne_nil, or_false]
        omega
      · cases hds : digits c with
        | nil => exact absurd hds (digits_ne_nil c)
        | cons d ds =>
            obtain ⟨k, hk⟩ : ∃ k, (digits c).length - (-scale).toNat = k + 1 :=
              ⟨_, (Nat.succ_pred_eq_of_pos (by omega)).symm⟩
            rw [hk, hds, List.take_succ_cons] at hrest
            obtain rfl : d = Digit.zero := (List.cons.inj hrest).1
            exact absurd (hhead ds hds).1.ge hscale
    · exact ⟨by simp, fun ds hds => (List.cons.inj hds).2.symm, by simp⟩

theorem proper_scientific {ds : List Digit} (hds : ds ≠ []) (power : Int) :
    (l.scientific negative ds power).Proper := by
  cases ds with
  | nil => exact absurd rfl hds
  | cons d ds =>
      refine ⟨by simp [scientific], fun rest hrest => ?_, ?_⟩
      · exact (List.cons.inj hrest).2.symm
      · rintro e he
        cases he
        exact digits_ne_nil _

theorem proper_numeral (x : Float) : (l.numeral x).Proper := by
  simp only [numeral]
  exact iteInduction (motive := Numeral.Proper) (fun _ => l.proper_place _ scale_shortest)
    fun _ => l.proper_scientific _ (digits_ne_nil _) _

end Layout

end Inbetween.Decimal
