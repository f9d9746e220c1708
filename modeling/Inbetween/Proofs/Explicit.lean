import Inbetween.Proofs.Drafts
import Inbetween.Proofs.Plans

/-!
# Explicit descriptions

A build fills in what a description leaves out: modes from the configuration, the ends of drivers,
the bounds of the window from the clock, and at the first level the current value. Written into the
description, all of this is known once and for all, and whatever the explicit description is built
under makes no difference any more.
-/

namespace Inbetween

variable {α : Type} [Scalar α] {V : Vocabulary} {M : Type}

/-! ## Writing out what is missing -/

namespace Settings

def withModes (s : Settings α) (cfg : Config) : Settings α :=
  { s with easing := some (s.easing.getD cfg.easing), extend := some (s.extend.getD cfg.extend) }

/-- Starts at the current value unless it says otherwise. -/
def continuing (s : Settings α) (current : Option α) : Settings α :=
  { s with start := s.start <|> current }

/-- A driver runs from 0 to 1 unless it says otherwise. -/
def withEnds (s : Settings α) : Settings α :=
  { s with start := some (s.start.getD 0.0), finish := some (s.finish.getD 1.0) }

/-- The bounds of the window in place of what they follow from, if there are any. -/
def withBounds (s : Settings α) (clock : Clock α) : Settings α :=
  match Window.bounds? s.opens s.closes s.lasts clock with
  | some (o, c) => { s with opens := some o, closes := some c, lasts := none }
  | none => s

end Settings

/-- Writes out a row of levels. The ends of the first one are left alone. -/
def Timing.explicit (cfg : Config) (clock : Clock α) : Settings α → Timing α → Spec α
  | s, .clock => ⟨(s.withModes cfg).withBounds clock, .clock⟩
  | s, .fixed ratio => ⟨s.withModes cfg, .fixed ratio⟩
  | s, .tween inner timing =>
    let driver := timing.explicit cfg clock inner.withEnds
    ⟨s.withModes cfg, .tween driver.settings driver.timing⟩

/-- The description with everything in it that a build would fill in. -/
def Spec.explicit (spec : Spec α) (cfg : Config) (clock : Clock α) (current : Option α) : Spec α :=
  spec.timing.explicit cfg clock (spec.settings.continuing current)

/-! ## Nothing is missing -/

/-- The level has both ends and both modes. -/
structure Settings.IsFull (s : Settings α) : Prop where
  start : ∃ v, s.start = some v
  finish : ∃ v, s.finish = some v
  easing : ∃ mode, s.easing = some mode
  extend : ∃ mode, s.extend = some mode

/-- The window is given by its bounds alone. -/
structure Settings.IsBounded (s : Settings α) : Prop where
  opens : ∃ v, s.opens = some v
  closes : ∃ v, s.closes = some v
  lasts : s.lasts = none

/-- All levels of the row are full, and a level that follows the clock is bounded. -/
inductive Timing.IsExplicit : Settings α → Timing α → Prop
  | clock {s : Settings α} (full : s.IsFull) (bounded : s.IsBounded) : IsExplicit s .clock
  | fixed {s : Settings α} {ratio : α} (full : s.IsFull) : IsExplicit s (.fixed ratio)
  | tween {s inner : Settings α} {timing : Timing α} (full : s.IsFull)
      (driver : IsExplicit inner timing) : IsExplicit s (.tween inner timing)

def Spec.IsExplicit (spec : Spec α) : Prop := Timing.IsExplicit spec.settings spec.timing

/-! ## Levels -/

namespace Settings

variable {s : Settings α} {cfg : Config} {clock : Clock α}

@[simp] theorem withBounds_start : (s.withBounds clock).start = s.start := by
  rw [withBounds]; split <;> rfl

@[simp] theorem withBounds_finish : (s.withBounds clock).finish = s.finish := by
  rw [withBounds]; split <;> rfl

@[simp] theorem withBounds_easing : (s.withBounds clock).easing = s.easing := by
  rw [withBounds]; split <;> rfl

@[simp] theorem withBounds_extend : (s.withBounds clock).extend = s.extend := by
  rw [withBounds]; split <;> rfl

@[simp] theorem level_withBounds {a b : α} :
    (s.withBounds clock).level cfg a b = s.level cfg a b := by
  simp [level]

omit [Scalar α] in
/-- The modes that were written down are found again, whatever the configuration is then. -/
@[simp] theorem level_withModes {cfg' : Config} {a b : α} :
    (s.withModes cfg).level cfg' a b = s.level cfg a b := by
  simp [level, withModes]

/-- The bounds that were written down are found again, whatever the clock shows then. -/
@[simp] theorem window_withBounds {clock' : Clock α} :
    (s.withBounds clock).window clock' = s.window clock := by
  have hbounds : Window.bounds? (s.withBounds clock).opens (s.withBounds clock).closes
      (s.withBounds clock).lasts clock' = Window.bounds? s.opens s.closes s.lasts clock := by
    obtain ⟨start, finish, opens, closes, lasts, extend, easing⟩ := s
    rw [withBounds]
    cases opens <;> cases closes <;> cases lasts <;> rfl
  simp only [window, Window.resolve, hbounds]

omit [Scalar α] in
theorem IsFull.withModes_eq (h : s.IsFull) : s.withModes cfg = s := by
  obtain ⟨start, finish, opens, closes, lasts, extend, easing⟩ := s
  obtain ⟨-, -, ⟨mode, rfl⟩, ⟨mode', rfl⟩⟩ := h
  rfl

theorem IsFull.withEnds_eq (h : s.IsFull) : s.withEnds = s := by
  obtain ⟨start, finish, opens, closes, lasts, extend, easing⟩ := s
  obtain ⟨⟨a, rfl⟩, ⟨b, rfl⟩, -, -⟩ := h
  rfl

theorem IsBounded.withBounds_eq (h : s.IsBounded) : s.withBounds clock = s := by
  obtain ⟨start, finish, opens, closes, lasts, extend, easing⟩ := s
  obtain ⟨⟨o, rfl⟩, ⟨c, rfl⟩, rfl⟩ := h
  rfl

theorem isBounded_withBounds {w : Window α}
    (h : Window.resolve s.opens s.closes s.lasts clock = .ok w) :
    (s.withBounds clock).IsBounded := by
  have hbounds : Window.bounds? s.opens s.closes s.lasts clock = some (w.opens, w.closes) :=
    (Window.resolve_eq_ok.mp h).1
  rw [withBounds, hbounds]
  exact ⟨⟨_, rfl⟩, ⟨_, rfl⟩, rfl⟩

end Settings

/-! ## Rows of levels -/

namespace Timing

variable {s : Settings α} {timing : Timing α} {cfg : Config} {clock : Clock α}

@[simp] theorem explicit_start : (timing.explicit cfg clock s).settings.start = s.start := by
  cases timing <;> simp [explicit, Settings.withModes]

@[simp] theorem explicit_finish : (timing.explicit cfg clock s).settings.finish = s.finish := by
  cases timing <;> simp [explicit, Settings.withModes]

@[simp] theorem level_explicit {cfg' : Config} {a b : α} :
    (timing.explicit cfg clock s).settings.level cfg' a b = s.level cfg a b := by
  cases timing <;> simp [explicit]

theorem innerLevel_explicit_withEnds {cfg' : Config} :
    (timing.explicit cfg clock s.withEnds).settings.innerLevel cfg' = s.innerLevel cfg := by
  simp only [Settings.innerLevel, level_explicit, explicit_start, explicit_finish]
  rfl

/-! The ends of a level have no say in where its time comes from. -/

@[simp] theorem drive_withEnds :
    timing.drive cfg clock s.withEnds = timing.drive cfg clock s := by
  cases timing <;> rfl

@[simp] theorem drive_continuing {current : Option α} :
    timing.drive cfg clock (s.continuing current) = timing.drive cfg clock s := by
  cases timing <;> rfl

/-- A row that is written out settles as the row did, under any configuration and at any time. The
induction goes down the row: the modes and ends of a level are settled where it is, and its time
one level further. -/
theorem drive_explicit (cfg' : Config) (clock' : Clock α) :
    (timing.explicit cfg clock s).timing.drive cfg' clock' (timing.explicit cfg clock s).settings =
      timing.drive cfg clock s := by
  induction timing generalizing s with
  | clock =>
      simp only [explicit, drive, Settings.window_withBounds]
      rfl
  | fixed ratio => rfl
  | tween inner timing ih =>
      simp only [explicit, drive, ih, drive_withEnds, innerLevel_explicit_withEnds]

/-- What is written down for a level has all that the level needs. -/
theorem isFull_explicit (timing : Timing α) (hstart : ∃ v, s.start = some v)
    (hfinish : ∃ v, s.finish = some v) :
    (timing.explicit cfg clock s).settings.IsFull where
  start := by rw [explicit_start]; exact hstart
  finish := by rw [explicit_finish]; exact hfinish
  easing := by cases timing <;> simp [explicit, Settings.withModes]
  extend := by cases timing <;> simp [explicit, Settings.withModes]

/-- A row that settles is explicit once it is written out. -/
theorem isExplicit_explicit {drive : Drive α} (hstart : ∃ v, s.start = some v)
    (hfinish : ∃ v, s.finish = some v) (h : (timing.drive cfg clock s).outcome = .ok drive) :
    IsExplicit (timing.explicit cfg clock s).settings (timing.explicit cfg clock s).timing := by
  induction timing generalizing s drive with
  | clock =>
      obtain ⟨w, hw, -⟩ := Draft.outcome_map_eq_ok.mp h
      exact .clock (isFull_explicit .clock hstart hfinish)
        (Settings.isBounded_withBounds (s := s.withModes cfg) hw)
  | fixed ratio => exact .fixed (isFull_explicit (.fixed ratio) hstart hfinish)
  | tween inner timing ih =>
      obtain ⟨below, hbelow, -⟩ := Draft.outcome_map_eq_ok.mp h
      have hdriver : (timing.drive cfg clock inner.withEnds).outcome = .ok below := by
        rw [drive_withEnds, hbelow]
      exact .tween (isFull_explicit (.tween inner timing) hstart hfinish)
        (ih ⟨_, rfl⟩ ⟨_, rfl⟩ hdriver)

omit [Scalar α] in
theorem IsExplicit.isFull (h : IsExplicit s timing) : s.IsFull := by
  cases h <;> assumption

/-- Nothing is written into a row that is explicit. -/
theorem IsExplicit.explicit_eq (h : IsExplicit s timing) (cfg : Config) (clock : Clock α) :
    timing.explicit cfg clock s = ⟨s, timing⟩ := by
  induction h with
  | clock full bounded => rw [explicit, full.withModes_eq, bounded.withBounds_eq]
  | fixed full => rw [explicit, full.withModes_eq]
  | tween full driver ih =>
      simp only [explicit, full.withModes_eq, driver.isFull.withEnds_eq, ih]

end Timing

/-! ## Descriptions -/

namespace Spec

variable {spec : Spec α} {cfg : Config} {clock : Clock α} {current : Option α}

/-- The draft of a description that is written out is the one of the description, under whatever it
is drafted then. -/
theorem plan_explicit {p : Plan α} (h : (spec.plan cfg clock current none).outcome = .ok p)
    (cfg' : Config) (clock' : Clock α) (current' : Option α) :
    (spec.explicit cfg clock current).plan cfg' clock' current' none =
      spec.plan cfg clock current none := by
  obtain ⟨a, b, drive, hstart, hfinish, -, -⟩ := plan_eq_ok.mp h
  have hstart' : ((spec.explicit cfg clock current).settings.start <|> current') = some a := by
    rw [explicit, Timing.explicit_start, Settings.continuing, hstart]
    rfl
  have hfinish' : ((spec.explicit cfg clock current).settings.finish <|> none) = some b := by
    rw [explicit, Timing.explicit_finish, Settings.continuing, hfinish]
  have hlevel : (spec.explicit cfg clock current).settings.level cfg' a b =
      spec.settings.level cfg a b := Timing.level_explicit
  have hdrive : (spec.explicit cfg clock current).timing.drive cfg' clock'
      (spec.explicit cfg clock current).settings = spec.timing.drive cfg clock spec.settings := by
    rw [explicit, Timing.drive_explicit, Timing.drive_continuing]
  simp only [plan, hstart, hfinish, hstart', hfinish', hlevel, hdrive]

theorem isExplicit_explicit {p : Plan α} (h : (spec.plan cfg clock current none).outcome = .ok p) :
    (spec.explicit cfg clock current).IsExplicit := by
  obtain ⟨a, b, drive, hstart, hfinish, hdrive, -⟩ := plan_eq_ok.mp h
  have hend : spec.settings.finish = some b := by simpa using hfinish
  have hrow : (spec.timing.drive cfg clock (spec.settings.continuing current)).outcome =
      .ok drive := by
    rw [Timing.drive_continuing, hdrive]
  exact Timing.isExplicit_explicit ⟨a, hstart⟩ ⟨b, hend⟩ hrow

/-- Nothing is written into a description that is explicit. -/
theorem IsExplicit.explicit_eq (h : spec.IsExplicit) (cfg : Config) (clock : Clock α)
    (current : Option α) : spec.explicit cfg clock current = spec := by
  obtain ⟨settings, timing⟩ := spec
  have hrow : Timing.IsExplicit settings timing := h
  obtain ⟨a, hstart⟩ := hrow.isFull.start
  have hsettings : settings.continuing current = settings := by
    obtain ⟨start, finish, opens, closes, lasts, extend, easing⟩ := settings
    obtain rfl : start = some a := hstart
    rfl
  rw [explicit, hsettings]
  exact hrow.explicit_eq cfg clock

end Spec

/-! ## Builds -/

/-- **An explicit description builds the same animation under everything.** If a description is
built, then what a build fills in can be written into it. Nothing is missing in it then, it is built
to the same scene under any configuration, any clock and any current value, and writing out what is
missing a second time changes nothing. -/
theorem explicit_builds_alike (host : Host α V M) (spec : Spec α) (cfg : Config) (clock : Clock α)
    (current : Option α) {w w' : World α V M} {a : AnimationId}
    (h : host.Answers (.build spec cfg clock current) w (.ok a) w') :
    (spec.explicit cfg clock current).IsExplicit ∧
    ∀ (cfg' : Config) (clock' : Clock α) (current' : Option α),
      host.Answers (.build (spec.explicit cfg clock current) cfg' clock' current') w (.ok a) w' ∧
      (spec.explicit cfg clock current).explicit cfg' clock' current' =
        spec.explicit cfg clock current := by
  obtain ⟨p, hp⟩ := exists_answers_build_ok.mp ⟨a, w', h⟩
  have hexplicit : (spec.explicit cfg clock current).IsExplicit := Spec.isExplicit_explicit hp
  refine ⟨hexplicit, fun cfg' clock' current' => ⟨?_, hexplicit.explicit_eq cfg' clock' current'⟩⟩
  rw [answers_build, Spec.plan_explicit hp]
  exact answers_build.mp h

namespace Unspoken

/-! A tween without a start that is driven by one which says only how long it lasts. -/

def vocabulary : Vocabulary := ⟨Empty, Empty, Empty⟩

def host : Host Float vocabulary Unit := ⟨Empty.elim, Empty.elim, Empty.elim⟩

def spec : Spec Float :=
  ⟨{ finish := some 5.0, easing := some .inQuad }, .tween { lasts := some 4.0 } .clock⟩

def cfg : Config := { extend := .reverse, easing := .outCirc }

def spoken : Spec Float :=
  ⟨{ start := some 2.0, finish := some 5.0, easing := some .inQuad, extend := some .reverse },
    .tween
      { start := some 0.0, finish := some 1.0, opens := some 3.0, closes := some 7.0,
        easing := some .outCirc, extend := some .reverse }
      .clock⟩

theorem spoken_builds_alike :
    ∃ a w',
      host.Answers (.build spec cfg (.startingAt 3.0) (some 2.0)) { memory := () } (.ok a) w' ∧
      host.Answers (.build spoken {} (.startingAt 9.0) none) { memory := () } (.ok a) w' ∧
      spoken.explicit {} (.startingAt 9.0) (some 8.0) = spoken := by
  have hspoken : spec.explicit cfg (.startingAt 3.0) (some 2.0) = spoken := by decide +kernel
  have hbuilt : host.Answers (.build spec cfg (.startingAt 3.0) (some 2.0)) { memory := () } _ _ :=
    ⟨1, rfl⟩
  obtain ⟨-, again⟩ := explicit_builds_alike host spec cfg (.startingAt 3.0) (some 2.0) hbuilt
  rw [hspoken] at again
  exact ⟨_, _, hbuilt, (again {} (.startingAt 9.0) none).1,
    (again {} (.startingAt 9.0) (some 8.0)).2⟩

end Unspoken

end Inbetween
