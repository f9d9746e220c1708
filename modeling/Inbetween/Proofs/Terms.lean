import Inbetween.Proofs.Evaluations
import Inbetween.Proofs.Following

/-!
# Terms

A contract asks the same of every call. Terms may ask more of some calls than of others: they say in
which worlds a call is admitted, and what its answer grants. Beside each run they follow a twin, the
same run in an altered world. If no step notices the alteration, the twin does the same things and
its worlds are altered in the same way. Without an alteration the terms are just pre- and
postconditions.
-/

namespace Inbetween

variable {α : Type} {V : Vocabulary} {M : Type} {β γ : Type}

structure Terms (α : Type) (V : Vocabulary) (M : Type) where
  admits : Call α V M → World α V M → Prop
  grants : (c : Call α V M) → World α V M → c.Answer → World α V M → Prop

namespace Act

variable {t : Terms α V M} {τ : World α V M → World α V M} {w : World α V M}

/-- The act, begun in `w`, makes admitted calls only and ends as `Q` says, and neither what it sees
nor what it does depends on the alteration. -/
def Meets (t : Terms α V M) (τ : World α V M → World α V M) :
    Act α V M β → (β → World α V M → Prop) → World α V M → Prop
  | .done b, Q, w => Q b w
  | .look next, Q, w => next (τ w) = next w ∧ (next w).Meets t τ Q w
  | .update f next, Q, w => f (τ w) = τ (f w) ∧ next.Meets t τ Q (f w)
  | .call c next, Q, w =>
    t.admits c w ∧ ∀ a w', t.grants c w a w' → (next a).Meets t τ Q w'

@[simp] theorem meets_done {b : β} {Q : β → World α V M → Prop} :
    (done b : Act α V M β).Meets t τ Q w ↔ Q b w := Iff.rfl

@[simp] theorem meets_look {next : World α V M → Act α V M β} {Q : β → World α V M → Prop} :
    (look next).Meets t τ Q w ↔ next (τ w) = next w ∧ (next w).Meets t τ Q w := Iff.rfl

@[simp] theorem meets_update {f : World α V M → World α V M} {next : Act α V M β}
    {Q : β → World α V M → Prop} :
    (update f next).Meets t τ Q w ↔ f (τ w) = τ (f w) ∧ next.Meets t τ Q (f w) := Iff.rfl

theorem Meets.mono {Q Q' : β → World α V M → Prop} {p : Act α V M β} (h : p.Meets t τ Q w)
    (hQ : ∀ b w', Q b w' → Q' b w') : p.Meets t τ Q' w := by
  induction p generalizing w with
  | done b => exact hQ b w h
  | look next ih => exact ⟨h.1, ih w h.2⟩
  | update f next ih => exact ⟨h.1, ih h.2⟩
  | call c next ih => exact ⟨h.1, fun a w' hg => ih a (h.2 a w' hg)⟩

theorem Meets.bind {p : Act α V M β} {f : β → Act α V M γ} {Q : γ → World α V M → Prop}
    (h : p.Meets t τ (fun b w' => (f b).Meets t τ Q w') w) : (p.bind f).Meets t τ Q w := by
  induction p generalizing w with
  | done b => exact h
  | look next ih => exact ⟨congrArg (·.bind f) h.1, ih w h.2⟩
  | update g next ih => exact ⟨h.1, ih h.2⟩
  | call c next ih => exact ⟨h.1, fun a w' hg => ih a (h.2 a w' hg)⟩

/-- A run is altered with its world, as far as the answers to its calls are. -/
theorem Meets.run {answer : (c : Call α V M) → World α V M → Option (c.Answer × World α V M)}
    (hanswer : ∀ c w, t.admits c w →
      answer c (τ w) = (answer c w).map (Prod.map id τ) ∧
        ∀ a w', answer c w = some (a, w') → t.grants c w a w')
    {p : Act α V M β} {Q : β → World α V M → Prop} (h : p.Meets t τ Q w) :
    p.run answer (τ w) = (p.run answer w).map (Prod.map id τ) ∧
      ∀ b w', p.run answer w = some (b, w') → Q b w' := by
  induction p generalizing w with
  | done b =>
      refine ⟨rfl, fun b' w' hrun => ?_⟩
      obtain ⟨rfl, rfl⟩ := Prod.mk.inj (Option.some.inj hrun)
      exact h
  | look next ih =>
      have hnext := ih w h.2
      simp only [Act.run, h.1]
      exact hnext
  | update f next ih =>
      have hnext := ih h.2
      simp only [Act.run, h.1]
      exact hnext
  | call c next ih =>
      obtain ⟨htwin, hgrants⟩ := hanswer c w h.1
      simp only [Act.run, htwin]
      cases hc : answer c w with
      | none =>
          refine ⟨rfl, ?_⟩
          intro b w' hrun
          cases hrun
      | some r => exact ih r.1 (h.2 r.1 r.2 (hgrants r.1 r.2 hc))

end Act

section Sound

variable [Scalar α] {host : Host α V M} {t : Terms α V M} {τ : World α V M → World α V M}

/-- Every admitted call is answered as granted. -/
def Terms.Sound (t : Terms α V M) (τ : World α V M → World α V M) (host : Host α V M) : Prop :=
  ∀ c w, t.admits c w → (Evaluate.answer host c).Meets t τ (t.grants c w) w

theorem Terms.Sound.respond (h : t.Sound τ host) (n : Nat) :
    ∀ c w, t.admits c w →
      respond host n c (τ w) = (respond host n c w).map (Prod.map id τ) ∧
        ∀ a w', respond host n c w = some (a, w') → t.grants c w a w' := by
  induction n with
  | zero => exact fun c w _ => ⟨rfl, nofun⟩
  | succ n ih => exact fun c w hc => (h c w hc).run ih

end Sound

end Inbetween
