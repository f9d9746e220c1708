import Mathlib.Analysis.SpecialFunctions.Trigonometric.Basic
import Inbetween.Proofs.Exact

/-!
# Real numbers as scalars

The real numbers are exact scalars with the elementary functions that the names stand for.
-/

namespace Inbetween

noncomputable instance : Elementary ℝ := ⟨Real.sqrt, Real.sin, Real.cos, Real.exp, Real.pi⟩

/-- Roots are taken exactly, and are not negative. -/
def Elementary.ExactRoots (K : Type) [Field K] [LinearOrder K] [Elementary K] : Prop :=
  ∀ x : K, 0 ≤ x → 0 ≤ sqrt x ∧ sqrt x * sqrt x = x

theorem Elementary.exactRoots_real : ExactRoots ℝ := by
  intro x hx
  exact ⟨Real.sqrt_nonneg x, Real.mul_self_sqrt hx⟩

end Inbetween
