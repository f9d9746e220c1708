import Inbetween.Proofs.Evaluations

/-!
# Recorded runs

An animation may be evaluated anywhere in a run: by the host, through a link that something else
reads, or by code that a source or a hook stands for. A recording takes down all evaluations of one
animation in the order in which they finish, each with its clock, its report and the calls that were
made for it. Nothing is changed by recording, so a run can be spoken of by its recording.
-/

namespace Inbetween

variable {α : Type} {V : Vocabulary} {M : Type} {β γ : Type}

/-- A call and its answer. -/
abbrev Exchange (α : Type) (V : Vocabulary) (M : Type) := (c : Call α V M) × c.Answer

/-- One evaluation of an animation. -/
structure Evaluation (α : Type) (V : Vocabulary) (M : Type) where
  clock : Clock α
  /-- The calls that are made for the evaluation. Calls that are made to answer these are not among
  them. -/
  calls : List (Exchange α V M)
  /-- How many evaluations of the same animation finish meanwhile. -/
  within : Nat
  report : α

/-! ## Calls that evaluate -/

namespace Call

/-- The clock of the evaluation, if the call, made in this world, evaluates the animation. -/
def evaluates? (a : AnimationId) (w : World α V M) : Call α V M → Option (Clock α)
  | .sample b clock => if b = a then some clock else none
  | .evaluateIn b _ clock => if b = a then some clock else none
  | .read (.link l) clock => do
    let here ← w.scene.links[l]?
    if here.target = a ∧ here.pin.isNone ∧ here.busy = false then some clock else none
  | _ => none

/-- These are the calls that sample the animation. -/
theorem evaluates?_eq_some {a : AnimationId} {w : World α V M} {c : Call α V M} {clock : Clock α} :
    c.evaluates? a w = some clock ↔ ∃ through w₁, c.Samples w a through clock w₁ := by
  constructor
  · intro h
    cases c with
    | sample b clock' =>
        obtain ⟨rfl, rfl⟩ : b = a ∧ clock' = clock := by simpa [evaluates?] using h
        exact ⟨_, _, .direct⟩
    | evaluateIn b l clock' =>
        obtain ⟨rfl, rfl⟩ : b = a ∧ clock' = clock := by simpa [evaluates?] using h
        exact ⟨_, _, .evaluated⟩
    | read slot clock' =>
        cases slot with
        | constant v => cases h
        | external source => cases h
        | link l =>
            obtain ⟨here, hhere, hsome⟩ := Option.bind_eq_some_iff.mp h
            obtain ⟨⟨rfl, hpin, hbusy⟩, rfl⟩ : (here.target = a ∧ here.pin.isNone ∧
              here.busy = false) ∧ clock' = clock := by simpa using hsome
            exact ⟨_, _, .read hhere (Option.isNone_iff_eq_none.mp hpin) hbusy⟩
    | _ => cases h
  · rintro ⟨through, w₁, h⟩
    cases h with
    | direct => simp [evaluates?]
    | evaluated => simp [evaluates?]
    | read found unpinned idle => simp [evaluates?, found, unpinned, idle]

/-- The number that the answer to a call reports. -/
def reported? : (c : Call α V M) → c.Answer → Option α
  | .read _ _, v => some v
  | .sample _ _, s => some s.get
  | .evaluateIn _ _ _, v => some v
  | _, _ => none

/-- The evaluation of the animation that the call is, if it is one. -/
def evaluation? (a : AnimationId) (w : World α V M) (c : Call α V M) (answer : c.Answer)
    (calls : List (Exchange α V M)) (within : Nat) : Option (Evaluation α V M) := do
  let clock ← c.evaluates? a w
  let report ← c.reported? answer
  return { clock, calls, within, report }

end Call

/-! ## Recording -/

/-- What becomes of an act, and what is recorded of it. -/
structure Recorded (α : Type) (V : Vocabulary) (M : Type) (β : Type) where
  result : β
  world : World α V M
  calls : List (Exchange α V M) := []
  evaluations : List (Evaluation α V M) := []

namespace Recorded

/-- What is left if nothing had been recorded. -/
def erase (r : Recorded α V M β) : β × World α V M := (r.result, r.world)

/-- The recording goes on with what comes next. -/
def andThen (r : Recorded α V M β) (s : Recorded α V M γ) : Recorded α V M γ :=
  { s with calls := r.calls ++ s.calls, evaluations := r.evaluations ++ s.evaluations }

/-- The recording of a call, from the recording of its answer. -/
def answering (c : Call α V M) (r : Recorded α V M c.Answer) : Recorded α V M c.Answer :=
  { r with calls := [⟨c, r.result⟩] }

/-- The evaluation that the call is, if it is one, finishes when the call is answered. -/
def finishing (a : AnimationId) (w : World α V M) (c : Call α V M)
    (r : Recorded α V M c.Answer) : Recorded α V M c.Answer :=
  { r with evaluations := r.evaluations ++
      (c.evaluation? a w r.result r.calls r.evaluations.length).toList }

end Recorded

/-- Runs an act and records it. -/
def Act.record (tell : (c : Call α V M) → World α V M → Option (Recorded α V M c.Answer)) :
    Act α V M β → World α V M → Option (Recorded α V M β)
  | .done b, w => some { result := b, world := w }
  | .look next, w => (next w).record tell w
  | .update f next, w => next.record tell (f w)
  | .call c next, w =>
    (tell c w).bind fun r => ((next r.result).record tell r.world).map (r.answering c).andThen

/-- The answer to a call, with calls nested up to the given depth, and the evaluations of the
animation on the way. -/
def Host.tell [Scalar α] (host : Host α V M) (a : AnimationId) :
    (depth : Nat) → (c : Call α V M) → World α V M → Option (Recorded α V M c.Answer)
  | 0, _, _ => none
  | depth + 1, c, w =>
    ((Evaluate.answer host c).record (host.tell a depth) w).map (Recorded.finishing a w c)

/-! ## Recorded runs are runs -/

section Erasure

variable {tell : (c : Call α V M) → World α V M → Option (Recorded α V M c.Answer)}

theorem Act.erase_record
    {answer : (c : Call α V M) → World α V M → Option (c.Answer × World α V M)}
    (h : ∀ c w, (tell c w).map Recorded.erase = answer c w) (p : Act α V M β) (w : World α V M) :
    (p.record tell w).map Recorded.erase = p.run answer w := by
  induction p generalizing w with
  | done b => rfl
  | look next ih => exact ih w w
  | update f next ih => exact ih (f w)
  | call c next ih =>
      rw [run, ← h c w, record]
      cases tell c w with
      | none => rfl
      | some r =>
          rw [Option.bind_some, Option.map_map]
          exact ih r.result r.world

theorem Recorded.andThen_comp {δ : Type} (r : Recorded α V M β) (s : Recorded α V M γ) :
    ((r.andThen s).andThen : Recorded α V M δ → _) = r.andThen ∘ s.andThen := by
  funext t
  simp only [andThen, Function.comp_apply, List.append_assoc]

theorem Act.record_bind (p : Act α V M β) (f : β → Act α V M γ) (w : World α V M) :
    (p.bind f).record tell w = (p.record tell w).bind fun r =>
      ((f r.result).record tell r.world).map r.andThen := by
  induction p generalizing w with
  | done b => exact Option.map_id'.symm
  | look next ih => exact ih w w
  | update g next ih => exact ih (g w)
  | call c next ih =>
      simp only [bind, record, ih]
      cases tell c w with
      | none => rfl
      | some r =>
          simp only [Option.bind_some]
          cases (next r.result).record tell r.world with
          | none => rfl
          | some s =>
              simp only [Option.bind_some, Option.map_some, Option.map_map, Recorded.andThen_comp]
              rfl

end Erasure

theorem Host.erase_tell [Scalar α] (host : Host α V M) (a : AnimationId) (depth : Nat)
    (c : Call α V M) (w : World α V M) :
    (host.tell a depth c w).map Recorded.erase = respond host depth c w := by
  induction depth generalizing c w with
  | zero => rfl
  | succ depth ih =>
      rw [tell, Option.map_map]
      exact Act.erase_record ih _ w

end Inbetween
