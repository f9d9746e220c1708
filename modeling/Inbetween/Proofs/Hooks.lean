import Inbetween.Binary64.Scalar
import Inbetween.Proofs.Contracts
import Mathlib.Data.List.Induction

/-!
# Hooks

An on-end hook runs when a read through a link, or a direct evaluation, finds the animation at its
end. Which runs there have to be can be told from the samples that finish and from the hooks that
are installed at these moments. The runs that there are turn out to be these, in the same order,
whatever the hooks and sources do in between.
-/

namespace Inbetween

variable {α : Type} {V : Vocabulary} {M : Type}

/-- A hook that is run for a read through a link, and told the end value. -/
structure HookRun (α : Type) (V : Vocabulary) where
  hook : V.Hook
  through : LinkId
  finish : α

/-! ## Hooks in the journal -/

def Event.hookRun? : Event α V → Option (HookRun α V)
  | .hookRun hook l v => some ⟨hook, l, v⟩
  | _ => none

/-- The hook runs of a journal. -/
def hookRuns (j : List (Event α V)) : List (HookRun α V) := j.filterMap Event.hookRun?

/-- One more event, for the hook that is installed. -/
def installedAfter (a : AnimationId) (hook : Option V.Hook) : Event α V → Option V.Hook
  | .hookSet b hook' => if b = a then hook' else hook
  | _ => hook

/-- The hook that is installed after the changes of a journal. -/
def hookInstalled (a : AnimationId) (hook : Option V.Hook) (j : List (Event α V)) :
    Option V.Hook :=
  j.foldl (installedAfter a) hook

/-- The hook run that is due when a sample finishes: the sample was taken through a link, it is
over, and a hook is installed. -/
def Event.brings (hooks : AnimationId → Option V.Hook) : Event α V → Option (HookRun α V)
  | .sampleFinished a (some l) (.ended v) => (hooks a).map (⟨·, l, v⟩)
  | _ => none

/-- The hook runs that are due, in the order in which the samples finish. -/
def runsDue (hooks : AnimationId → Option V.Hook) : List (Event α V) → List (HookRun α V)
  | [] => []
  | e :: j => (e.brings hooks).toList ++ runsDue (fun a => installedAfter a (hooks a) e) j

/-- The event is about no hook. -/
structure Event.SparesHooks (e : Event α V) : Prop where
  installed : ∀ a hook, installedAfter a hook e = hook := by exact fun _ _ => rfl
  brings : ∀ hooks, e.brings hooks = none := by exact fun _ => rfl
  run : e.hookRun? = none := by rfl

theorem hookInstalled_snoc (a : AnimationId) (hook : Option V.Hook) (j : List (Event α V))
    (e : Event α V) :
    hookInstalled a hook (j ++ [e]) = installedAfter a (hookInstalled a hook j) e := by
  simp [hookInstalled]

theorem hookRuns_snoc (j : List (Event α V)) (e : Event α V) :
    hookRuns (j ++ [e]) = hookRuns j ++ e.hookRun?.toList := by
  cases h : e.hookRun? <;> simp [hookRuns, h]

theorem runsDue_snoc (hooks : AnimationId → Option V.Hook) (j : List (Event α V)) (e : Event α V) :
    runsDue hooks (j ++ [e]) =
      runsDue hooks j ++ (e.brings fun a => hookInstalled a (hooks a) j).toList := by
  induction j generalizing hooks with
  | nil => simp [runsDue, hookInstalled]
  | cons d j ih => simp [runsDue, ih, hookInstalled]

/-! ## The contract -/

/-- Hooks are installed as the journal tells, and of the hook runs that are due only the given ones
have not been started. -/
structure World.Owes (hooks : AnimationId → Option V.Hook) (pending : List (HookRun α V))
    (w : World α V M) : Prop where
  installed : ∀ a, (w.scene.animation a).hook = hookInstalled a (hooks a) w.journal.toList
  due : runsDue hooks w.journal.toList = hookRuns w.journal.toList ++ pending

namespace World.Owes

variable {hooks : AnimationId → Option V.Hook} {pending pending' : List (HookRun α V)}
  {w w' : World α V M}

/-- Nothing is noted, and hooks stay. -/
theorem still (h : w.Owes hooks pending)
    (hhook : ∀ a, (w'.scene.animation a).hook = (w.scene.animation a).hook)
    (hj : w'.journal = w.journal) : w'.Owes hooks pending :=
  ⟨fun a => by rw [hhook, hj, h.installed], hj ▸ h.due⟩

/-- What a single event brings about. -/
theorem step {e : Event α V} (h : w.Owes hooks pending)
    (hhook : ∀ a, (w'.scene.animation a).hook = installedAfter a (w.scene.animation a).hook e)
    (hj : w'.journal.toList = w.journal.toList ++ [e])
    (hpending : pending ++ (e.brings fun a => (w.scene.animation a).hook).toList =
      e.hookRun?.toList ++ pending') : w'.Owes hooks pending' := by
  refine ⟨fun a => ?_, ?_⟩
  · rw [hhook, hj, hookInstalled_snoc, h.installed]
  · rw [hj, runsDue_snoc, hookRuns_snoc, h.due, List.append_assoc, List.append_assoc,
      ← hpending, funext h.installed]

end World.Owes

/-- No hook run is owed. -/
def hookContract (M : Type) (hooks : AnimationId → Option V.Hook) : Contract α V M where
  holds w := w.Owes hooks []
  moves _ _ := True
  refl _ := trivial
  trans _ _ := trivial

namespace HookContract

open Act Evaluate

variable {hooks : AnimationId → Option V.Hook} {w w' : World α V M}

theorem note {e : Event α V} (he : e.SparesHooks) (hw : (hookContract M hooks).holds w) :
    (hookContract M hooks).Allows w (w.note e) := by
  refine ⟨World.Owes.step hw (e := e) (fun a => ?_) (World.note_journal w e) ?_, trivial⟩
  · rw [he.installed, World.note_scene]
  · rw [he.brings, he.run]
    rfl

theorem modifyAnimation (a : AnimationId) {f : Animation α V → Animation α V}
    (hf : ∀ anim, (f anim).hook = anim.hook) (hw : (hookContract M hooks).holds w) :
    (hookContract M hooks).Allows w (w.modifyAnimation a f) := by
  refine ⟨World.Owes.still hw (fun b => ?_) rfl, trivial⟩
  rw [World.modifyAnimation_scene, Scene.animation_modifyAnimation]
  split
  · exact hf _
  · rfl

/-- A change of an animation that is taken down, in which its hook stays. -/
theorem changed {a : AnimationId} {f : Animation α V → Animation α V} {e : Event α V}
    (he : e.SparesHooks) (hf : ∀ anim, (f anim).hook = anim.hook)
    (hw : (hookContract M hooks).holds w) :
    (hookContract M hooks).Allows w ((w.modifyAnimation a f).note e) :=
  note he (modifyAnimation a hf hw).1

theorem modifyLink (l : LinkId) (f : Link α → Link α) (hw : (hookContract M hooks).holds w) :
    (hookContract M hooks).Allows w (w.modifyLink l f) :=
  ⟨World.Owes.still hw (fun _ => rfl) rfl, trivial⟩

theorem welcomes : (hookContract M hooks : Contract α V M).Welcomes where
  noted _ _ := note {}
  added w ss _ hsc hw := ⟨World.Owes.step hw (e := .added w.scene.animations.size ss) hsc.hook
    (World.note_journal _ _) rfl, trivial⟩
  linked _ _ hsc hw := ⟨World.Owes.still hw hsc.hook rfl, trivial⟩
  remembered _ _ hw := ⟨World.Owes.still hw (fun _ => rfl) rfl, trivial⟩

variable [Scalar α] {host : Host α V M}

/-- When a sample has finished, the run that it brings is owed. -/
theorem keeps_sample (through : Option LinkId) (a : AnimationId) (clock : Clock α)
    (hw : (hookContract M hooks).holds w) :
    (sample host through a clock).Keeps (hookContract M hooks)
      (fun s w' => w'.Owes hooks ((Event.sampleFinished a through s).brings fun b =>
        (w'.scene.animation b).hook).toList) w := by
  have h₁ := note (e := .sampleBegan a through) {} hw
  have hstrategy : (strategy host a clock (w.scene.animation a).strategy).Keeps
      (hookContract M hooks) (fun _ w' => (hookContract M hooks).Allows _ w') _ :=
    (hookContract M hooks).keeps_strategy (fun hw a f hf => modifyAnimation a hf hw) a clock _ h₁.1
  simp only [sample, bind_eq_bind, keeps_bind, keeps_note, keeps_animation]
  refine hstrategy.mono ?_
  intro s w₂ h₂
  exact World.Owes.step h₂.1 (e := .sampleFinished a through s) (fun _ => rfl)
    (World.note_journal _ _) rfl

theorem keeps_evaluateIn (a : AnimationId) (l : LinkId) (clock : Clock α)
    (hw : (hookContract M hooks).holds w) :
    (evaluateIn host a l clock).Keeps (hookContract M hooks)
      (fun _ w' => (hookContract M hooks).Allows w w') w := by
  simp only [evaluateIn, bind_eq_bind, keeps_bind]
  refine (keeps_sample (some l) a clock hw).mono fun s w₁ h₁ => ?_
  cases s with
  | value v => exact ⟨h₁, trivial⟩
  | ended v =>
      simp only [keeps_bind, keeps_animation]
      cases hinst : (w₁.scene.animation a).hook with
      | none =>
          simp only [Event.brings, hinst] at h₁
          exact ⟨h₁, trivial⟩
      | some hook =>
          -- The run that the sample brought is the one that starts now.
          simp only [Event.brings, hinst] at h₁
          simp only [keeps_bind, keeps_note]
          have h₂ : (hookContract M hooks).Allows w (w₁.note (.hookRun hook l v)) :=
            ⟨h₁.step (e := .hookRun hook l v) (fun _ => rfl) (World.note_journal _ _) rfl, trivial⟩
          exact ((onlyCalls_perform _).keeps h₂.1).after h₂

theorem keeps_readLink (l : LinkId) (clock : Clock α) (hw : (hookContract M hooks).holds w) :
    (readLink host l clock).Keeps (hookContract M hooks)
      (fun _ w' => (hookContract M hooks).Allows w w') w := by
  refine Contract.keeps_readLink (fun hw a => keeps_evaluateIn a l clock hw) (fun hw => ?_)
    (fun hw => ?_) (fun hw v => ?_) hw
  · exact modifyLink l _ (note {} hw).1
  · exact modifyLink l _ (note {} hw).1
  · exact note {} (modifyLink l _ hw).1

end HookContract

open HookContract in
theorem hookContract_sound [Scalar α] (host : Host α V M) (hooks : AnimationId → Option V.Hook) :
    (hookContract M hooks : Contract α V M).Sound host := by
  apply (@welcomes α V M hooks).sound
  case hsource => exact fun hw s => note {} hw
  case hsample =>
    exact fun hw a clock => (keeps_sample none a clock hw).mono fun _ _ h => ⟨h, trivial⟩
  case hevaluate => exact fun hw a l clock => keeps_evaluateIn a l clock hw
  case hlink => exact fun hw l clock => keeps_readLink l clock hw
  case hhold => exact fun hw a _ => changed {} (fun _ => rfl) hw
  case hrelease => exact fun hw a _ => changed {} (fun _ => rfl) hw
  case hreconfigure => exact fun hw a _ _ _ _ => changed {} (fun _ => rfl) hw
  case hsetHook =>
    intro w hw a hook ha
    refine ⟨World.Owes.step hw (e := .hookSet a hook) (fun b => ?_) (World.note_journal _ _) rfl,
      trivial⟩
    simp only [World.note_scene, World.modifyAnimation_scene, Scene.animation_modifyAnimation,
      installedAfter]
    by_cases hb : a = b
    · simp [hb, hb ▸ ha]
    · simp [hb]
  case hsetPin => exact fun hw l pin => note {} (modifyLink l _ hw).1

/-! ## Every moment of every run -/

open Evaluate in
/-- **Hooks run when samples end.** At every moment of every run the hook runs so far are those that
were due, one for one and in the order in which the samples finished: the samples that were taken
through a link and were over, of animations that had a hook installed at that moment.

* An evaluation samples its animation. If the animation is over and a hook is installed then, this
  hook runs, told of the link and the end value, and the value is its result.
* A read evaluates if it gets past pin and guard. Otherwise nothing runs.
* A sample taken directly is the answer, and a chain samples its segments directly.
* An animation is over if it is an interpolation or a curve that is held at its end, a chain of
  which all segments are over, or if the host says so. -/
theorem hookRuns_eq_runsDue [Scalar α] {β : Type} (host : Host α V M) (r : Routine α V M β)
    {w : World α V M} (fresh : w.journal = #[]) :
    (∀ w', host.Reaches r w w' →
      hookRuns w'.journal.toList =
        runsDue (fun a => (w.scene.animation a).hook) w'.journal.toList ∧
      ∀ a, (w'.scene.animation a).hook =
        hookInstalled a (w.scene.animation a).hook w'.journal.toList) ∧
    (∀ a l clock w₁ v w₂, host.Answers (.evaluateIn a l clock) w₁ v w₂ ↔
      ∃ s w', (sample host (some l) a clock).Yields host w₁ s w' ∧
        host.Concludes a l s w' v w₂) ∧
    (∀ l clock w₁ v w₂, host.Answers (.read (.link l) clock) w₁ v w₂ ↔
      host.Reads l clock w₁ v w₂) ∧
    (∀ a clock w₁ s w₂, host.Answers (.sample a clock) w₁ s w₂ ↔
      (sample host none a clock).Yields host w₁ s w₂) ∧
    (∀ (clock : Clock α) segments, (chain (V := V) (M := M) clock segments).MakesOnly fun c =>
      ∃ a ∈ segments, c = .sample a clock) ∧
    ∀ through a clock w₁ v w₂, (sample host through a clock).Yields host w₁ (.ended v) w₂ ↔
      host.Ends through a clock w₁ (w₁.scene.animation a).strategy v w₂ := by
  have hw : (hookContract M fun a => (w.scene.animation a).hook).holds w :=
    ⟨by simp [fresh, hookInstalled], by simp [fresh, runsDue, hookRuns]⟩
  refine ⟨?_, ?_, ?_, ?_, chain_makesOnly, ?_⟩
  · intro w' h
    have hw' := (hookContract_sound host _).reaches hw h
    exact ⟨by simpa using hw'.due.symm, hw'.installed⟩
  · intro a l clock w₁ v w₂
    exact Host.answers_iff.trans yields_evaluateIn
  · intro l clock w₁ v w₂
    exact answers_read_link
  · intro a clock w₁ s w₂
    exact Host.answers_iff
  · intro through a clock w₁ v w₂
    exact yields_sample_ended

namespace Farewell

/-! An animation that is always over, and a hook that removes itself when it runs. -/

def vocabulary : Vocabulary := ⟨Empty, Unit, Unit⟩

def host : Host Float vocabulary Unit where
  source := Empty.elim
  hook _ _ v := do
    Routine.ask (.setHook 0 none)
    return v
  strategy _ _ := .ended 1.0

def world : World Float vocabulary Unit where
  scene :=
    { animations := #[{ strategy := .custom (), hook := some () }]
      links := #[{ target := 0 }] }
  memory := ()

def reader : Routine Float vocabulary Unit Float := do
  let _ ← Routine.ask (.read (.link 0) .new)
  Routine.ask (.read (.link 0) .new)

/-- The hook runs at the first read only. -/
theorem runs_once : ∃ w', host.Reaches reader world w' ∧
    hookRuns w'.journal.toList = [⟨(), 0, 1.0⟩] := by
  have told := hookRuns_eq_runsDue host reader (w := world) rfl
  have reached : ∃ w', host.Reaches reader world w' ∧
      runsDue (fun a => (world.scene.animation a).hook) w'.journal.toList = [⟨(), 0, 1.0⟩] :=
    ⟨_, .after ⟨3, rfl⟩ (.answered ⟨3, rfl⟩), rfl⟩
  obtain ⟨w', h, hdue⟩ := reached
  exact ⟨w', h, (told.1 w' h).1.trans hdue⟩

end Farewell

end Inbetween
