import Inbetween.Proofs.Drafts
import Inbetween.Proofs.Plans

/-!
# Reading descriptions directly

A description can be read as a recipe for numbers, level by level from the innermost one outward,
without plans, animations and links. The animation that is built from the description reports just
these numbers, whenever and however often it is sampled. Of the clock at building only the window is
left, and of the clock at sampling only its time matters.
-/

namespace Inbetween

open Act

variable {α : Type} [Scalar α] {V : Vocabulary} {M : Type}

/-! ## The reading -/

/-- What a level between two values reports at a time ratio. Modes that it does not name are those
of the configuration. -/
def Settings.report (s : Settings α) (cfg : Config) (start finish t : α) : Sample α :=
  match (s.extend.getD cfg.extend).normalize t with
  | .before => .value start
  | .past => .ended finish
  | .along u => .value (start + (finish - start) * (s.easing.getD cfg.easing).apply u)

/-- The time ratio of a level: by its window, which was resolved when the clock stood at `built`, or
the given number, or what the level below reports, which runs from 0 to 1 unless it says otherwise,
be it over or not. There is none if there is no window. -/
def Timing.ratioAt? (cfg : Config) (built : Clock α) (time : α) :
    Settings α → Timing α → Option α
  | s, .clock =>
    match Window.resolve s.opens s.closes s.lasts built with
    | .ok w => some ((time - w.opens) * (1.0 / (w.closes - w.opens)))
    | .error _ => none
  | _, .fixed ratio => some ratio
  | _, .tween inner timing =>
    (timing.ratioAt? cfg built time inner).map fun t =>
      (inner.report cfg (inner.start.getD 0.0) (inner.finish.getD 1.0) t).get

/-- What a description says for a time. A missing start is the current value. -/
def Spec.sampleAt? (s : Spec α) (cfg : Config) (built : Clock α) (current : Option α) (time : α) :
    Option (Sample α) :=
  match s.settings.start <|> current, s.settings.finish with
  | some start, some finish =>
    (s.timing.ratioAt? cfg built time s.settings).map (s.settings.report cfg start finish)
  | _, _ => none

/-! ## Plans say what descriptions say -/

theorem Level.sampleAt_level (s : Settings α) (cfg : Config) (start finish t : α) :
    (s.level cfg start finish).sampleAt t = s.report cfg start finish t := by
  simp only [Level.sampleAt, Settings.level, Settings.report, Phase.blend]
  cases (s.extend.getD cfg.extend).normalize t <;> rfl

theorem Timing.ratioAt?_of_drive {cfg : Config} {built : Clock α} {timing : Timing α}
    {s : Settings α} {drive : Drive α} (h : (timing.drive cfg built s).outcome = .ok drive)
    (time : α) : timing.ratioAt? cfg built time s = some (drive.ratioAt time) := by
  induction timing generalizing s drive with
  | clock =>
      obtain ⟨w, hw, rfl⟩ := Draft.outcome_map_eq_ok.mp h
      have hresolve : Window.resolve s.opens s.closes s.lasts built = .ok w := hw
      simp only [ratioAt?, hresolve]
      rfl
  | fixed ratio =>
      obtain rfl : Drive.fixed ratio = drive := Except.ok.inj h
      rfl
  | tween inner timing ih =>
      obtain ⟨below, hbelow, rfl⟩ := Draft.outcome_map_eq_ok.mp h
      rw [ratioAt?, ih hbelow, Option.map_some, Drive.ratioAt, Settings.innerLevel,
        Level.sampleAt_level]

theorem Spec.sampleAt?_of_plan {spec : Spec α} {cfg : Config} {built : Clock α}
    {current : Option α} {p : Plan α}
    (h : (spec.plan cfg built current none).outcome = .ok p) (time : α) :
    spec.sampleAt? cfg built current time = some (p.sampleAt time) := by
  obtain ⟨start, finish, drive, hstart, hfinish, hdrive, rfl⟩ := Spec.plan_eq_ok.mp h
  rw [Option.orElse_eq_orElse, Option.orElse_eq_or, Option.or_none] at hfinish
  rw [Spec.sampleAt?, hstart, hfinish, Timing.ratioAt?_of_drive hdrive]
  simp only [Option.map_some, Plan.sampleAt, Level.sampleAt_level]

/-! ## Built animations say what descriptions say -/

/-- Samples an animation at one clock after the other. -/
def Routine.sampleAll (a : AnimationId) :
    List (Clock α) → Routine α V M (List (Sample α))
  | [] => return []
  | clock :: rest => do
    let s ← ask (.sample a clock)
    let later ← sampleAll a rest
    return s :: later

/-- As long as the scene stays, the animation reports for every clock what `f` says for its time,
and nothing else happens. -/
def Scene.Reports (host : Host α V M) (sc : Scene α V) (a : AnimationId)
    (f : α → Sample α) : Prop :=
  ∀ (w : World α V M) (clock : Clock α), w.scene = sc →
    ∃ es, host.Answers (.sample a clock) w (f clock.time) (w.record es) ∧
      ∀ e ∈ es, e.isQuiet = true

section Sampling

variable {host : Host α V M} {w w' : World α V M}

theorem Scene.Plays.reports (host : Host α V M) {sc : Scene α V} {a : AnimationId} {p : Plan α}
    (h : sc.Plays a p) : sc.Reports host a p.sampleAt := by
  rintro w clock rfl
  obtain ⟨es, hsample, hquiet⟩ := h.answers_sample host clock
  refine ⟨_, hsample, fun e he => ?_⟩
  simp only [List.mem_append, List.mem_cons, List.not_mem_nil, or_false] at he
  rcases he with rfl | he | rfl
  · rfl
  · exact hquiet e he
  · rfl

/-- Samples are taken one after the other, and each is the one that the animation reports. -/
theorem Scene.Reports.yields_sampleAll {sc : Scene α V} {a : AnimationId} {f : α → Sample α}
    (h : sc.Reports host a f) (hw : w.scene = sc) (clocks : List (Clock α)) :
    ∃ es, (Routine.sampleAll a clocks).perform.Yields host w
      (clocks.map fun clock => f clock.time) (w.record es) ∧
      ∀ e ∈ es, e.isQuiet = true := by
  induction clocks generalizing w with
  | nil => exact ⟨[], yields_done.mpr ⟨rfl, w.record_nil⟩, by simp⟩
  | cons clock rest ih =>
      obtain ⟨first, hsample, hquiet⟩ := h w clock hw
      obtain ⟨later, hrest, hquiet'⟩ := ih (w := w.record first) hw
      rw [World.record_record] at hrest
      refine ⟨first ++ later, yields_call.mpr ⟨_, _, hsample, ?_⟩, fun e he => ?_⟩
      · show ((Routine.sampleAll a rest).bind fun later => _).perform.Yields host _ _ _
        rw [Routine.perform_bind]
        exact hrest.bind (yields_done.mpr ⟨rfl, rfl⟩)
      · exact (List.mem_append.mp he).elim (hquiet e) (hquiet' e)

theorem Scene.Plays.yields_sampleAll (host : Host α V M) {a : AnimationId} {p : Plan α}
    (h : w.scene.Plays a p) (clocks : List (Clock α)) :
    ∃ es, (Routine.sampleAll a clocks).perform.Yields host w
      (clocks.map fun clock => p.sampleAt clock.time) (w.record es) ∧
      ∀ e ∈ es, e.isQuiet = true :=
  (h.reports host).yields_sampleAll rfl clocks

/-- What was built plays the plan of the description. -/
theorem plays_of_build {spec : Spec α} {cfg : Config} {built : Clock α} {current : Option α}
    {a : AnimationId} (h : host.Answers (.build spec cfg built current) w (.ok a) w') :
    ∃ p, (spec.plan cfg built current none).outcome = .ok p ∧ w'.scene.Plays a p := by
  have hinstall := answers_build.mp h
  rw [World.install] at hinstall
  cases hp : (spec.plan cfg built current none).outcome with
  | error e =>
      rw [hp] at hinstall
      cases hinstall
  | ok p =>
      rw [hp] at hinstall
      cases hinstall
      exact ⟨p, rfl, Scene.plays_install p w.scene⟩

/-- **Built animations report what their descriptions say.** Let a description be built, at any
depth and with or without a current value. Then the animation can be sampled at any row of clocks,
and each sample is the one that is read off the description for the time of that clock alone. What
is left behind are events of reads and samples: no warning is given, no host code runs, and nothing
is changed. -/
theorem built_reports_description (host : Host α V M) {spec : Spec α} {cfg : Config}
    {built : Clock α} {current : Option α} {w w₁ : World α V M} {a : AnimationId}
    (h : host.Answers (.build spec cfg built current) w (.ok a) w₁) (clocks : List (Clock α)) :
    ∃ samples es, samples.map some =
        clocks.map (fun clock => spec.sampleAt? cfg built current clock.time) ∧
      (∀ e ∈ es, e.isQuiet = true) ∧
      ∃ depth, ∀ n, depth ≤ n →
        host.run n (Routine.sampleAll a clocks) w₁ = some (samples, w₁.record es) := by
  obtain ⟨p, hp, hplays⟩ := plays_of_build h
  obtain ⟨es, ⟨depth, hrun⟩, hquiet⟩ := hplays.yields_sampleAll host clocks
  refine ⟨_, es, ?_, hquiet, depth, fun n hn => run_respond_mono hn hrun⟩
  simp [Spec.sampleAt?_of_plan hp]

end Sampling

namespace Driven

/-! A tween that is driven by a second one, which runs for two units from time 1 on. -/

def vocabulary : Vocabulary := ⟨Empty, Empty, Empty⟩

def host : Host Float vocabulary Unit := ⟨Empty.elim, Empty.elim, Empty.elim⟩

def spec : Spec Float :=
  ⟨{ start := some 10.0, finish := some 20.0 }, .tween { lasts := some 2.0 } .clock⟩

/-- After the end of the driver the tween stays at its end without being over, and the time may go
back from there. -/
theorem holds_after_driver :
    ∃ w₁, host.Answers (.build spec {} (.startingAt 1.0) none) { memory := () } (.ok 1) w₁ ∧
      ∃ es depth, host.run depth
        (Routine.sampleAll 1 [⟨9.0, 4⟩, ⟨2.0, 0⟩, ⟨0.0, 7⟩]) w₁ =
          some ([.value 20.0, .value 15.0, .value 10.0], w₁.record es) := by
  have built : ∃ w₁, host.Answers (.build spec {} (.startingAt 1.0) none) { memory := () }
      (.ok 1) w₁ := ⟨_, 1, rfl⟩
  obtain ⟨w₁, built⟩ := built
  obtain ⟨samples, es, hsamples, -, depth, hrun⟩ :=
    built_reports_description host built [⟨9.0, 4⟩, ⟨2.0, 0⟩, ⟨0.0, 7⟩]
  have hread : [⟨9.0, 4⟩, ⟨2.0, 0⟩, ⟨0.0, 7⟩].map (fun clock : Clock Float =>
      spec.sampleAt? {} (.startingAt 1.0) none clock.time) =
      [.value 20.0, .value 15.0, .value 10.0].map some := by
    decide +kernel
  obtain rfl : samples = [.value 20.0, .value 15.0, .value 10.0] :=
    List.map_injective_iff.mpr (Option.some_injective _) (hsamples.trans hread)
  exact ⟨w₁, built, es, depth, hrun depth (Nat.le_refl depth)⟩

end Driven

end Inbetween
