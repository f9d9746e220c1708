import Inbetween.Proofs.Chains
import Inbetween.Proofs.Interpretation

/-!
# Performances

A description is performed when it is built and what was built is then sampled at one clock after
the other. What comes of a performance can be told without a world: it is the error of the draft,
or the row of samples that the plans of the description say. This holds of chains of any segments,
whether these follow the clock or not.
-/

namespace Inbetween

open Act

variable {α : Type} [Scalar α] {V : Vocabulary} {M : Type}

/-! ## What a row of plans says -/

/-- The sample of the first plan that is not over, or else of the last one. -/
def Plan.sampleInTurn : List (Plan α) → (time : α) → Sample α
  | [], _ => .value 0.0
  | [last], time => last.sampleAt time
  | p :: next :: rest, time =>
    if (p.sampleAt time).isEnded then sampleInTurn (next :: rest) time else p.sampleAt time

/-- A chain asks the plans one after the other, until one is not over. -/
theorem yields_chain_inTurn (host : Host α V M) {sc : Scene α V} {ids : List AnimationId}
    {plans : List (Plan α)} (h : List.Forall₂ sc.Plays ids plans) {w : World α V M}
    (clock : Clock α) (hw : w.scene = sc) :
    ∃ es, (Evaluate.chain clock ids).Yields host w (Plan.sampleInTurn plans clock.time)
      (w.record es) ∧ ∀ e ∈ es, e.isQuiet = true := by
  -- Sampling leaves only quiet events behind, so those that come later still play their plans.
  induction h generalizing w with
  | nil => exact ⟨[], yields_done.mpr ⟨rfl, w.record_nil⟩, by simp⟩
  | @cons a p ids plans hp hrest ih =>
      obtain ⟨es, hsample, hquiet⟩ := hp.reports host w clock hw
      cases hrest with
      | nil => exact ⟨es, yields_ask.mpr hsample, hquiet⟩
      | @cons a' p' ids plans hp' hrest =>
          obtain ⟨later, hlater, hquiet'⟩ := ih (w := w.record es) hw
          rw [Plan.sampleInTurn]
          cases hs : p.sampleAt clock.time with
          | value v =>
              rw [hs] at hsample
              exact ⟨es, (yields_ask.mpr hsample).bind (yields_done.mpr ⟨rfl, rfl⟩), hquiet⟩
          | ended v =>
              rw [hs] at hsample
              rw [World.record_record] at hlater
              refine ⟨es ++ later, (yields_ask.mpr hsample).bind hlater, fun e he => ?_⟩
              exact (List.mem_append.mp he).elim (hquiet e) (hquiet' e)

theorem Scene.reports_chain (host : Host α V M) {sc : Scene α V} {a : AnimationId}
    {ids : List AnimationId} {plans : List (Plan α)}
    (stands : (sc.animation a).strategy = .chain ids) (h : List.Forall₂ sc.Plays ids plans) :
    sc.Reports host a (Plan.sampleInTurn plans) := by
  rintro w clock rfl
  obtain ⟨es, hchain, hquiet⟩ :=
    yields_chain_inTurn host h (w := w.note (.sampleBegan a none)) clock rfl
  refine ⟨.sampleBegan a none ::
    (es ++ [.sampleFinished a none (Plan.sampleInTurn plans clock.time)]), ?_, fun e he => ?_⟩
  · refine Host.answers_iff.mpr (yields_sample_iff.mpr
      ⟨(w.note (.sampleBegan a none)).record es, ?_, ?_⟩)
    · rw [stands]
      exact hchain
    · simp [World.note_eq_record]
  · simp only [List.mem_append, List.mem_cons, List.not_mem_nil, or_false] at he
    rcases he with rfl | he | rfl
    · rfl
    · exact hquiet e he
    · rfl

/-! ## Performing -/

namespace Routine

/-- Samples an animation at one clock after the other, if there is one. -/
def samplesOf (clocks : List (Clock α)) :
    Except (Error α) AnimationId → Routine α V M (Except (Error α) (List (Sample α)))
  | .error e => return .error e
  | .ok a => return .ok (← sampleAll a clocks)

/-- Builds a description and samples what was built. -/
def playSpec (s : Spec α) (cfg : Config) (built : Clock α) (current : Option α)
    (clocks : List (Clock α)) : Routine α V M (Except (Error α) (List (Sample α))) := do
  samplesOf clocks (← ask (.build s cfg built current))

/-- Builds a chain and samples what was built. -/
def playChain (c : ChainSpec α) (cfg : Config) (built : Clock α) (current : Option α)
    (clocks : List (Clock α)) : Routine α V M (Except (Error α) (List (Sample α))) := do
  samplesOf clocks (← ask (.buildChain c cfg built current))

end Routine

/-- The routine, begun in `w`, comes to the result. -/
def Host.Gives {β : Type} (host : Host α V M) (w : World α V M) (r : Routine α V M β) (b : β) :
    Prop :=
  ∃ w', r.perform.Yields host w b w'

section Performing

variable {host : Host α V M}

theorem Host.Gives.unique {β : Type} {w : World α V M} {r : Routine α V M β} {b b' : β}
    (h : host.Gives w r b) (h' : host.Gives w r b') : b = b' := by
  obtain ⟨_, h⟩ := h
  obtain ⟨_, h'⟩ := h'
  exact (h.unique h').1

/-- Samples are taken of what an installed draft settled on. -/
theorem gives_samplesOf_install {β : Type} (draft : Draft α β)
    {add : β → Scene α V → AnimationId × Scene α V} {f : β → α → Sample α}
    (reports : ∀ b sc, (add b sc).2.Reports host (add b sc).1 (f b)) (w : World α V M)
    (clocks : List (Clock α)) :
    host.Gives (w.install draft add).2 (Routine.samplesOf clocks (w.install draft add).1)
      (draft.outcome.map fun b => clocks.map fun clock => f b clock.time) := by
  rw [World.install]
  cases draft.outcome with
  | error e => exact ⟨_, yields_done.mpr ⟨rfl, rfl⟩⟩
  | ok b =>
      let built := (w.record (draft.notes.map .noted)).grow (add b w.scene).2
      obtain ⟨es, hsamples, -⟩ := (reports b w.scene).yields_sampleAll (w := built) rfl clocks
      refine ⟨built.record es, ?_⟩
      show ((Routine.sampleAll _ clocks).bind fun samples => _).perform.Yields host _ _ _
      rw [Routine.perform_bind]
      exact hsamples.bind (yields_done.mpr ⟨rfl, rfl⟩)

/-- The performance of a description is that of its plan. -/
theorem gives_playSpec (host : Host α V M) (w : World α V M) (s : Spec α) (cfg : Config)
    (built : Clock α) (current : Option α) (clocks : List (Clock α)) :
    host.Gives w (Routine.playSpec s cfg built current clocks)
      ((s.plan cfg built current none).outcome.map fun p =>
        clocks.map fun clock => p.sampleAt clock.time) := by
  obtain ⟨w', hsamples⟩ := gives_samplesOf_install (s.plan cfg built current none)
    (fun p sc => (Scene.plays_install p sc).reports host) w clocks
  exact ⟨w', yields_call.mpr ⟨_, _, answers_build.mpr rfl, hsamples⟩⟩

/-- The performance of a chain is that of the plans of its segments in turn. -/
theorem gives_playChain (host : Host α V M) (w : World α V M) (c : ChainSpec α) (cfg : Config)
    (built : Clock α) (current : Option α) (clocks : List (Clock α)) :
    host.Gives w (Routine.playChain c cfg built current clocks)
      ((c.plans cfg built current).outcome.map fun ps =>
        clocks.map fun clock => Plan.sampleInTurn ps clock.time) := by
  have reports : ∀ (ps : List (Plan α)) (sc : Scene α V),
      (Plan.installChain ps sc).2.Reports host (Plan.installChain ps sc).1
        (Plan.sampleInTurn ps) := by
    intro ps sc
    obtain ⟨stands, plays⟩ := Scene.plays_installChain ps sc
    exact Scene.reports_chain host stands.1 plays
  obtain ⟨w', hsamples⟩ := gives_samplesOf_install (c.plans cfg built current) reports w clocks
  exact ⟨w', yields_call.mpr ⟨_, _, answers_buildChain.mpr rfl, hsamples⟩⟩

end Performing

end Inbetween
