import Inbetween.Proofs.Evaluations
import Inbetween.Proofs.Growth

/-!
# Checking contracts

What most contracts have in common. They do not mind that things are made, and an evaluation keeps
them as soon as its sample does. So a contract is checked by looking at the few rules that matter to
it.
-/

namespace Inbetween

variable {α : Type} {V : Vocabulary}

/-! ## Calls that make something -/

/-- A contract that minds neither notes nor growth. -/
structure Contract.Welcomes {M : Type} (k : Contract α V M) : Prop where
  noted : ∀ w n, k.holds w → k.Allows w (w.note (.noted n))
  added : ∀ w ss sc, w.scene.Grows ss sc → k.holds w →
    k.Allows w ({ w with scene := sc }.note (.added w.scene.animations.size ss))
  linked : ∀ w sc, w.scene.Grows [] sc → k.holds w → k.Allows w { w with scene := sc }
  remembered : ∀ w m, k.holds w → k.Allows w { w with memory := m }

namespace Contract.Welcomes

variable {M : Type} {k : Contract α V M} {w : World α V M}

theorem keeps_grow (hk : k.Welcomes) {β : Type} {f : Scene α V → β × Scene α V}
    (hf : ∃ ss, w.scene.Grows ss (f w.scene).2) (hw : k.holds w) :
    (Act.grow f).Keeps k (fun _ w' => k.Allows w w') w := by
  obtain ⟨ss, h⟩ := hf
  simpa [Act.grow, h.strategiesFrom] using hk.added w ss _ h hw

theorem keeps_notes (hk : k.Welcomes) (notes : List (Note α)) (hw : k.holds w) :
    (notes.forM fun n => Act.note (.noted n)).Keeps k (fun _ w' => k.Allows w w') w := by
  induction notes generalizing w with
  | nil => exact ⟨hw, k.refl w⟩
  | cons n rest ih =>
      have h₁ := hk.noted w n hw
      simp only [List.forM_eq_forM, List.forM_cons, Act.bind_eq_bind, Act.keeps_bind,
        Act.keeps_note]
      exact (ih h₁.1).after h₁

theorem keeps_install (hk : k.Welcomes) {β : Type} (draft : Draft α β)
    {add : β → Scene α V → AnimationId × Scene α V}
    (hadd : ∀ b sc, ∃ ss, Scene.Grows sc ss (add b sc).2) (hw : k.holds w) :
    (Evaluate.install draft add).Keeps k (fun _ w' => k.Allows w w') w := by
  simp only [Evaluate.install, Act.bind_eq_bind, Act.keeps_bind]
  refine (hk.keeps_notes draft.notes hw).mono fun _ w₁ h₁ => ?_
  cases draft.outcome with
  | error e => exact h₁
  | ok b =>
      simp only [Act.keeps_bind]
      exact (hk.keeps_grow (hadd b w₁.scene) h₁.1).after h₁

end Contract.Welcomes

/-! ## Samples and reads -/

section Rules

open Act Evaluate

variable {M : Type} [Scalar α] {host : Host α V M} {k : Contract α V M} {w : World α V M}

/-- A strategy that is no interpolation keeps a contract that does not mind its rate. -/
theorem Contract.keeps_unlent (a : AnimationId) (clock : Clock α) (s : Strategy α V)
    (hs : s.interpolation? = none)
    (hrate : ∀ {w'}, k.Allows w w' → ∀ source last current,
      k.Allows w' (w'.modifyAnimation a fun anim =>
        { anim with strategy := .rate source last current }))
    (hw : k.holds w) : (strategy host a clock s).Keeps k (fun _ w' => k.Allows w w') w := by
  cases s with
  | interpolate i => simp [Strategy.interpolation?] at hs
  | bezier points time extend =>
      exact OnlyCalls.keeps ((onlyCalls_ratio clock time).bind fun _ => trivial) hw
  | wrap low high source =>
      exact OnlyCalls.keeps (p := strategy host a clock (.wrap low high source))
        (fun _ _ _ => trivial) hw
  | rate source last current =>
      simp only [strategy]
      split
      · exact ⟨hw, k.refl w⟩
      · refine ⟨hw, fun v w₁ hw₁ hm => ?_⟩
        have h₁ : k.Allows w w₁ := ⟨hw₁, hm⟩
        exact h₁.trans (hrate h₁ source _ _)
  | chain segments => exact (onlyCalls_chain clock segments).keeps hw
  | custom s => exact ⟨hw, k.refl w⟩

/-- A strategy keeps a contract that does not mind changes of animations in which hooks stay. -/
theorem Contract.keeps_strategy
    (hchange : ∀ {w}, k.holds w → ∀ a f, (∀ anim, (f anim).hook = anim.hook) →
      k.Allows w (w.modifyAnimation a f))
    (a : AnimationId) (clock : Clock α) (s : Strategy α V) (hw : k.holds w) :
    (strategy host a clock s).Keeps k (fun _ w' => k.Allows w w') w := by
  cases hs : s.interpolation? with
  | none => exact keeps_unlent a clock s hs (fun h _ _ _ => hchange h.1 a _ fun _ => rfl) hw
  | some i =>
      have h₁ := hchange hw a (fun anim => { anim with sampling := anim.sampling + 1 })
        fun _ => rfl
      rw [Strategy.eq_of_interpolation? hs, strategy, keeps_borrowing]
      refine ((onlyCalls_interpolation clock i).keeps h₁.1).mono fun _ w₂ h₂ => ?_
      exact (h₁.trans h₂).trans (hchange h₂.1 a _ fun _ => rfl)

/-- An evaluation keeps a contract if its sample does and the contract does not mind hook runs. -/
theorem Contract.keeps_evaluateIn {a : AnimationId} {l : LinkId} {clock : Clock α}
    (hsample : (sample host (some l) a clock).Keeps k (fun _ w' => k.Allows w w') w)
    (hrun : ∀ {w}, k.holds w → ∀ hook v, k.Allows w (w.note (.hookRun hook l v))) :
    (evaluateIn host a l clock).Keeps k (fun _ w' => k.Allows w w') w := by
  simp only [evaluateIn, bind_eq_bind, keeps_bind]
  refine hsample.mono fun s w₁ h₁ => ?_
  cases s with
  | value v => exact h₁
  | ended v =>
      simp only [keeps_bind, keeps_animation]
      cases (w₁.scene.animation a).hook with
      | none => exact h₁
      | some hook =>
          simp only [keeps_bind, keeps_note]
          have h₂ := h₁.trans (hrun h₁.1 hook v)
          exact ((onlyCalls_perform _).keeps h₂.1).after h₂

/-- A read of a link keeps a contract if evaluations do and the contract does not mind guards. -/
theorem Contract.keeps_readLink {l : LinkId} {clock : Clock α}
    (hevaluate : ∀ {w}, k.holds w → ∀ a,
      (evaluateIn host a l clock).Keeps k (fun _ w' => k.Allows w w') w)
    (hcut : ∀ {w}, k.holds w → k.Allows w
      ((w.note (.cycleMet l)).modifyLink l fun link => { link with busy := false }))
    (henter : ∀ {w}, k.holds w → k.Allows w (w.enter l))
    (hleave : ∀ {w}, k.holds w → ∀ v, k.Allows w (w.leave l v)) (hw : k.holds w) :
    (readLink host l clock).Keeps k (fun _ w' => k.Allows w w') w := by
  simp only [readLink, bind_eq_bind, keeps_bind, keeps_link?]
  split
  · exact ⟨hw, k.refl w⟩
  · rename_i here _
    split
    · exact ⟨hw, k.refl w⟩
    · split
      · exact hcut hw
      · simp only [keeps_bind, keeps_note, keeps_modifyLink]
        have h₁ := henter hw
        refine ((hevaluate h₁.1 here.target).after h₁).mono fun v w₂ h₂ => ?_
        exact h₂.trans (hleave h₂.1 v)

end Rules

/-! ## Soundness -/

namespace Contract.Welcomes

variable {M : Type} {k : Contract α V M} [Scalar α] {host : Host α V M}

open Act Evaluate in
/-- A contract that minds neither notes nor growth is sound if samples, evaluations, reads of links
and changes keep it. -/
theorem sound (hk : k.Welcomes)
    (hsource : ∀ {w}, k.holds w → ∀ s, k.Allows w (w.note (.sourceRead s)))
    (hsample : ∀ {w}, k.holds w → ∀ a clock,
      (sample host none a clock).Keeps k (fun _ w' => k.Allows w w') w)
    (hevaluate : ∀ {w}, k.holds w → ∀ a l clock,
      (evaluateIn host a l clock).Keeps k (fun _ w' => k.Allows w w') w)
    (hlink : ∀ {w}, k.holds w → ∀ l clock,
      (readLink host l clock).Keeps k (fun _ w' => k.Allows w w') w)
    (hhold : ∀ {w}, k.holds w → ∀ a, (w.scene.animation a).interpolation?.isSome →
      k.Allows w ((w.modifyAnimation a fun anim =>
        { anim with held := anim.held + 1 }).note (.held a)))
    (hrelease : ∀ {w}, k.holds w → ∀ a, (w.scene.animation a).interpolation?.isSome →
      k.Allows w ((w.modifyAnimation a fun anim =>
        { anim with held := anim.held - 1 }).note (.released a)))
    (hreconfigure : ∀ {w}, k.holds w → ∀ a change i,
      (w.scene.animation a).interpolation? = some i →
      (w.scene.animation a).isBorrowed = false →
      k.Allows w ((w.modifyAnimation a fun anim =>
        { anim with strategy := .interpolate (i.change change) }).note (.reconfigured a change)))
    (hsetHook : ∀ {w}, k.holds w → ∀ a hook, a < w.scene.animations.size →
      k.Allows w ((w.modifyAnimation a fun anim =>
        { anim with hook := hook }).note (.hookSet a hook)))
    (hsetPin : ∀ {w}, k.holds w → ∀ l pin,
      k.Allows w ((w.modifyLink l fun link => { link with pin := pin }).note (.pinSet l pin))) :
    k.Sound host := by
  intro c w hw
  have stays : k.Allows w w := ⟨hw, k.refl w⟩
  cases c with
  | read slot clock =>
      cases slot with
      | constant v => exact stays
      | external source =>
          have h₁ := hsource hw source
          exact ((onlyCalls_perform _).keeps h₁.1).after h₁
      | link l => exact hlink hw l clock
  | sample a clock => exact hsample hw a clock
  | evaluateIn a l clock => exact hevaluate hw a l clock
  | hold a =>
      simp only [answer, hold, bind_eq_bind, keeps_bind, keeps_animation]
      split
      · rename_i hi
        exact hhold hw a hi
      · exact stays
  | release a =>
      simp only [answer, release, bind_eq_bind, keeps_bind, keeps_animation]
      split
      · rename_i hi
        exact hrelease hw a hi
      · exact stays
  | reconfigure a change =>
      simp only [answer, reconfigure, bind_eq_bind, keeps_bind, keeps_animation]
      split
      · rename_i i hi
        split
        · exact stays
        · rename_i hfree
          refine hreconfigure hw a change i ?_ (Bool.eq_false_iff.mpr hfree)
          rw [Animation.interpolation?, hi, Strategy.interpolation?]
      · exact stays
  | setHook a hook =>
      simp only [answer, setHook, bind_eq_bind, keeps_bind, keeps_see]
      split
      · rename_i ha
        exact hsetHook hw a hook ha
      · exact stays
  | setPin l pin =>
      simp only [answer, setPin, bind_eq_bind, keeps_bind, keeps_link?]
      split
      · exact hsetPin hw l pin
      · exact stays
  | add s => exact hk.keeps_grow ⟨_, .addAnimation w.scene s⟩ hw
  | addLink a => exact hk.linked w _ (.addLink w.scene rfl) hw
  | cloneSlot slot => exact hk.linked w _ (.cloneSlot w.scene slot) hw
  | build spec cfg clock current => exact hk.keeps_install _ Scene.Grows.plan hw
  | buildChain spec cfg clock current => exact hk.keeps_install _ Scene.Grows.chain hw
  | scene => exact stays
  | «recall» => exact stays
  | remember m => exact hk.remembered w m hw

end Contract.Welcomes

end Inbetween
