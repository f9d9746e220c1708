import Inbetween.Proofs.Drafts
import Inbetween.Proofs.Plans

/-!
# What cannot be built

Building can fail at three places: the first level has no start, it has no end, or there is no
window for the row of levels to follow. The first two are looked for first. Of the window only the
last level of the row has a say, and only if no number stands there. All other settings are left to
defaults or ignored, so nothing in them makes building fail, and nothing in them can mend it.
-/

namespace Inbetween

variable {α : Type} [Scalar α] {V : Vocabulary} {M : Type}

/-! ## The level that decides -/

/-- The settings of the level that follows the clock. There are none if the row ends in a number. -/
def Timing.clocked? : Settings α → Timing α → Option (Settings α)
  | s, .clock => some s
  | _, .fixed _ => none
  | _, .tween inner timing => timing.clocked? inner

/-- The second row is the first one with other settings where they do not decide: any at the levels
that do not follow the clock, and any but those of the window at the level that does. -/
inductive Timing.Redressed : Settings α → Timing α → Settings α → Timing α → Prop
  | clock {s s' : Settings α} (opens : s'.opens = s.opens) (closes : s'.closes = s.closes)
      (lasts : s'.lasts = s.lasts) : Redressed s .clock s' .clock
  | fixed {s s' : Settings α} {ratio ratio' : α} : Redressed s (.fixed ratio) s' (.fixed ratio')
  | tween {s s' inner inner' : Settings α} {timing timing' : Timing α}
      (below : Redressed inner timing inner' timing') :
      Redressed s (.tween inner timing) s' (.tween inner' timing')

/-- Neither the description nor a current value says where to start. -/
def Spec.LacksStart (s : Spec α) (current : Option α) : Prop :=
  s.settings.start = none ∧ current = none

def Spec.LacksEnd (s : Spec α) : Prop := s.settings.finish = none

/-! ## Errors of drafts -/

section Drafts

variable {cfg : Config} {clock : Clock α} {s : Settings α} {timing : Timing α} {e : Error α}

omit [Scalar α] in
theorem Draft.outcome_map_eq_error {β γ : Type} {d : Draft α β} {f : β → γ} :
    (d.map f).outcome = .error e ↔ d.outcome = .error e := by
  cases h : d.outcome <;> simp [Draft.map, Except.map, h]

/-- A row of levels fails where its window is resolved. The induction goes down to that level;
those above only pass on what comes from below. -/
theorem Timing.drive_eq_error :
    (timing.drive cfg clock s).outcome = .error e ↔
      ∃ z, timing.clocked? s = some z ∧
        Window.resolve z.opens z.closes z.lasts clock = .error e := by
  induction timing generalizing s with
  | clock =>
      rw [drive, Draft.outcome_map_eq_error]
      simp [clocked?, Settings.window]
  | fixed ratio => simp [drive, clocked?]
  | tween inner timing ih =>
      rw [drive, Draft.outcome_map_eq_error]
      exact ih

/-- Windows do not ask for fields by name. -/
theorem Window.resolve_ne_missingField {opens closes lasts : Option α} (name : String) :
    Window.resolve opens closes lasts clock ≠ .error (.missingField name) := by
  rw [resolve]
  cases bounds? opens closes lasts clock with
  | none => simp
  | some bounds =>
      simp only [make]
      split <;> simp

omit [Scalar α] in
theorem Spec.lacksStart_iff {spec : Spec α} {current : Option α} :
    spec.LacksStart current ↔ (spec.settings.start <|> current) = none := by
  cases h : spec.settings.start <;> simp [LacksStart, h]

theorem Spec.plan_of_lacksStart {spec : Spec α} {current : Option α}
    (h : spec.LacksStart current) :
    (spec.plan cfg clock current none).outcome = .error (.missingField "start") := by
  rw [plan, lacksStart_iff.mp h]

theorem Spec.plan_of_lacksEnd {spec : Spec α} {current : Option α}
    (hstart : ¬ spec.LacksStart current) (h : spec.LacksEnd) :
    (spec.plan cfg clock current none).outcome = .error (.missingField "end") := by
  rw [lacksStart_iff] at hstart
  have hfinish : (spec.settings.finish <|> none) = none := by simp [show _ = none from h]
  obtain ⟨a, ha⟩ := Option.ne_none_iff_exists'.mp hstart
  rw [plan, ha, hfinish]

/-- With both values there, only the window is left to fail. -/
theorem Spec.plan_of_not_lacks (cfg : Config) (clock : Clock α) {spec : Spec α}
    {current : Option α} (hstart : ¬ spec.LacksStart current) (hend : ¬ spec.LacksEnd) :
    ∃ level, spec.plan cfg clock current none =
      (spec.timing.drive cfg clock spec.settings).map fun drive => ⟨level, drive⟩ := by
  rw [lacksStart_iff] at hstart
  obtain ⟨a, ha⟩ := Option.ne_none_iff_exists'.mp hstart
  obtain ⟨b, hb⟩ := Option.ne_none_iff_exists'.mp hend
  have hfinish : (spec.settings.finish <|> none) = some b := by simp [hb]
  exact ⟨spec.settings.level cfg a b, by rw [plan, ha, hfinish]⟩

/-- Rows that differ only in what does not decide fail alike. -/
theorem Timing.Redressed.drive_eq_error {s' : Settings α} {timing' : Timing α}
    (h : Redressed s timing s' timing') (cfg cfg' : Config) :
    (timing'.drive cfg' clock s').outcome = .error e ↔
      (timing.drive cfg clock s).outcome = .error e := by
  rw [Timing.drive_eq_error, Timing.drive_eq_error]
  induction h with
  | clock opens closes lasts => simp [clocked?, opens, closes, lasts]
  | fixed => simp [clocked?]
  | tween below ih => exact ih

/-- What drafting fails with, in the order in which it looks. -/
theorem Spec.plan_eq_error {spec : Spec α} {current : Option α} :
    (spec.plan cfg clock current none).outcome = .error e ↔
      (spec.LacksStart current ∧ e = .missingField "start") ∨
      (¬ spec.LacksStart current ∧ spec.LacksEnd ∧ e = .missingField "end") ∨
      (¬ spec.LacksStart current ∧ ¬ spec.LacksEnd ∧
        (spec.timing.drive cfg clock spec.settings).outcome = .error e) := by
  by_cases hstart : spec.LacksStart current
  · simp [hstart, plan_of_lacksStart hstart, eq_comm]
  by_cases hend : spec.LacksEnd
  · simp [hstart, hend, plan_of_lacksEnd hstart hend, eq_comm]
  · obtain ⟨level, hplan⟩ := plan_of_not_lacks cfg clock hstart hend
    simp [hstart, hend, hplan, Draft.outcome_map_eq_error]

end Drafts

/-! ## Builds -/

/-- Building fails with the error. -/
def Host.FailsToBuild (host : Host α V M) (spec : Spec α) (cfg : Config) (clock : Clock α)
    (current : Option α) (w : World α V M) (e : Error α) : Prop :=
  ∃ w', host.Answers (.build spec cfg clock current) w (.error e) w'

def Host.CanBuild (host : Host α V M) (spec : Spec α) (cfg : Config) (clock : Clock α)
    (current : Option α) (w : World α V M) : Prop :=
  ∃ a w', host.Answers (.build spec cfg clock current) w (.ok a) w'

section Builds

variable {host : Host α V M} {spec : Spec α} {cfg : Config} {clock : Clock α} {current : Option α}
  {w : World α V M}

theorem Host.failsToBuild_iff {e : Error α} :
    host.FailsToBuild spec cfg clock current w e ↔
      (spec.plan cfg clock current none).outcome = .error e :=
  exists_answers_build_error

/-- Building never goes without an answer. -/
theorem Host.canBuild_iff :
    host.CanBuild spec cfg clock current w ↔
      ∀ e, ¬ host.FailsToBuild spec cfg clock current w e := by
  simp only [failsToBuild_iff]
  rw [CanBuild, exists_answers_build_ok]
  cases (spec.plan cfg clock current none).outcome <;> simp

theorem Host.failsToBuild_missingField_start :
    host.FailsToBuild spec cfg clock current w (.missingField "start") ↔
      spec.LacksStart current := by
  rw [failsToBuild_iff, Spec.plan_eq_error, Timing.drive_eq_error]
  simp [Window.resolve_ne_missingField]

theorem Host.failsToBuild_missingField_end :
    host.FailsToBuild spec cfg clock current w (.missingField "end") ↔
      ¬ spec.LacksStart current ∧ spec.LacksEnd := by
  rw [failsToBuild_iff, Spec.plan_eq_error, Timing.drive_eq_error]
  simp [Window.resolve_ne_missingField]

theorem Host.failsToBuild_of_not_lacks (hstart : ¬ spec.LacksStart current)
    (hend : ¬ spec.LacksEnd) {e : Error α} :
    host.FailsToBuild spec cfg clock current w e ↔
      ∃ z, spec.timing.clocked? spec.settings = some z ∧
        Window.resolve z.opens z.closes z.lasts clock = .error e := by
  rw [failsToBuild_iff, Spec.plan_eq_error, Timing.drive_eq_error]
  simp [hstart, hend]

theorem Host.FailsToBuild.redressed {spec' : Spec α} {cfg' : Config} {current' : Option α}
    (hstart : spec'.LacksStart current' ↔ spec.LacksStart current)
    (hend : spec'.LacksEnd ↔ spec.LacksEnd)
    (hrow : Timing.Redressed spec.settings spec.timing spec'.settings spec'.timing) {e : Error α} :
    host.FailsToBuild spec' cfg' clock current' w e ↔
      host.FailsToBuild spec cfg clock current w e := by
  simp only [failsToBuild_iff, Spec.plan_eq_error, hstart, hend,
    hrow.drive_eq_error cfg cfg']

/-- **Building fails for a missing value of the first level, or for the window of the last level.**
A missing start is found before a missing end, and both before the window. The window counts only
if the row ends at the clock, and then the errors are those of resolving it; a row that ends in a
number is always built. All that the levels say besides can be changed without changing what
becomes of the build. -/
theorem build_fails_for_values_or_window (host : Host α V M) (spec : Spec α) (cfg : Config)
    (clock : Clock α) (current : Option α) (w : World α V M) :
    (host.FailsToBuild spec cfg clock current w (.missingField "start") ↔
      spec.LacksStart current) ∧
    (host.FailsToBuild spec cfg clock current w (.missingField "end") ↔
      ¬ spec.LacksStart current ∧ spec.LacksEnd) ∧
    (¬ spec.LacksStart current → ¬ spec.LacksEnd →
      (spec.timing.clocked? spec.settings = none → host.CanBuild spec cfg clock current w) ∧
      ∀ z, spec.timing.clocked? spec.settings = some z →
        (∀ e, host.FailsToBuild spec cfg clock current w e ↔
          Window.resolve z.opens z.closes z.lasts clock = .error e) ∧
        (host.CanBuild spec cfg clock current w ↔
          ∃ win, Window.resolve z.opens z.closes z.lasts clock = .ok win)) ∧
    (host.CanBuild spec cfg clock current w ↔
      ∀ e, ¬ host.FailsToBuild spec cfg clock current w e) ∧
    ∀ (spec' : Spec α) (cfg' : Config) (current' : Option α),
      (spec'.LacksStart current' ↔ spec.LacksStart current) →
      (spec'.LacksEnd ↔ spec.LacksEnd) →
      Timing.Redressed spec.settings spec.timing spec'.settings spec'.timing →
      (∀ e, host.FailsToBuild spec' cfg' clock current' w e ↔
        host.FailsToBuild spec cfg clock current w e) ∧
      (host.CanBuild spec' cfg' clock current' w ↔ host.CanBuild spec cfg clock current w) := by
  refine ⟨Host.failsToBuild_missingField_start, Host.failsToBuild_missingField_end,
    fun hstart hend => ⟨fun hfixed => ?_, fun z hz => ?_⟩, Host.canBuild_iff,
    fun spec' cfg' current' hstart hend hrow => ?_⟩
  · refine Host.canBuild_iff.mpr fun e he => ?_
    obtain ⟨z, hz, -⟩ := (Host.failsToBuild_of_not_lacks hstart hend).mp he
    simp [hfixed] at hz
  · have hfails : ∀ e, host.FailsToBuild spec cfg clock current w e ↔
        Window.resolve z.opens z.closes z.lasts clock = .error e := fun e => by
      simp [Host.failsToBuild_of_not_lacks hstart hend, hz]
    refine ⟨hfails, ?_⟩
    simp only [Host.canBuild_iff, hfails]
    cases Window.resolve z.opens z.closes z.lasts clock <;> simp
  · have hfails : ∀ e, host.FailsToBuild spec' cfg' clock current' w e ↔
        host.FailsToBuild spec cfg clock current w e := fun e =>
      Host.FailsToBuild.redressed hstart hend hrow
    exact ⟨hfails, by simp only [Host.canBuild_iff, hfails]⟩

end Builds

end Inbetween
