import Mathlib.Tactic.Ring
import Inbetween.Proofs.Performances
import Inbetween.Proofs.Playback

/-!
# Scales of time and value

Descriptions know no absolute time: if the clock and all times that a description states are moved
by the same span, it is performed as before. Nor do they know an absolute value: a change of scale
and origin of the values that it runs between changes the samples in the same way. Both hold for
numbers that do not round, at any nesting and in chains of any length, and failures stay what they
are.

Either change is followed from the description to its plan, and from there to the samples.
-/

namespace Inbetween

/-! ## Moving times -/

section Delays

variable {α : Type} [Scalar α]

def Clock.delayed (c : Clock α) (d : α) : Clock α := { c with time := c.time + d }

/-- The same settings with all stated times later by `d`. Spans of time stay. -/
def Settings.delayed (s : Settings α) (d : α) : Settings α :=
  { s with opens := s.opens.map (· + d), closes := s.closes.map (· + d) }

def Timing.delayed (d : α) : Timing α → Timing α
  | .clock => .clock
  | .fixed ratio => .fixed ratio
  | .tween settings timing => .tween (settings.delayed d) (timing.delayed d)

/-- The times of all levels are moved. -/
def Spec.delayed (s : Spec α) (d : α) : Spec α := ⟨s.settings.delayed d, s.timing.delayed d⟩

def Window.delayed (w : Window α) (d : α) : Window α := ⟨w.opens + d, w.closes + d⟩

def Drive.delayed (d : α) : Drive α → Drive α
  | .window w => .window (w.delayed d)
  | .fixed ratio => .fixed ratio
  | .tween level drive => .tween level (drive.delayed d)

def Plan.delayed (p : Plan α) (d : α) : Plan α := ⟨p.level, p.drive.delayed d⟩

/-- The same kind of error. One that speaks of a window speaks of the moved one. -/
def Error.delayed (d : α) : Error α → Error α
  | .emptyWindow opens closes => .emptyWindow (opens + d) (closes + d)
  | e => e

end Delays

/-! ## Mapping values -/

section Maps

variable {α : Type}

/-- A change of scale and origin. -/
def affine [Add α] [Mul α] (a b v : α) : α := a * v + b

def Sample.map (f : α → α) : Sample α → Sample α
  | .value v => .value (f v)
  | .ended v => .ended (f v)

/-- The values of the first level are mapped. Deeper levels make ratios, not values. -/
def Spec.mapValues (s : Spec α) (f : α → α) : Spec α :=
  { s with settings.start := s.settings.start.map f
           settings.finish := s.settings.finish.map f }

def Plan.mapValues (p : Plan α) (f : α → α) : Plan α :=
  { p with level.start := f p.level.start, level.finish := f p.level.finish }

theorem Sample.isEnded_map (s : Sample α) (f : α → α) : (s.map f).isEnded = s.isEnded := by
  cases s <;> rfl

end Maps

/-! ## Plans of mapped descriptions -/

section Values

variable {α : Type} [Scalar α] {cfg : Config} {clock : Clock α}

/-- Values are looked at by nobody until the tween is sampled, so any map will do. -/
theorem Spec.plan_mapValues (s : Spec α) (cfg : Config) (clock : Clock α) (f : α → α)
    (start finish : Option α) :
    ((s.mapValues f).plan cfg clock (start.map f) (finish.map f)).outcome =
      (s.plan cfg clock start finish).outcome.map (·.mapValues f) := by
  have hwindow : s.timing.drive cfg clock (s.mapValues f).settings =
      s.timing.drive cfg clock s.settings := by
    cases s.timing <;> rfl
  have hstart : ((s.mapValues f).settings.start <|> start.map f) =
      (s.settings.start <|> start).map f := by
    cases hs : s.settings.start <;> simp [mapValues, hs]
  have hfinish : ((s.mapValues f).settings.finish <|> finish.map f) =
      (s.settings.finish <|> finish).map f := by
    cases hs : s.settings.finish <;> simp [mapValues, hs]
  have htiming : (s.mapValues f).timing = s.timing := rfl
  rw [plan, plan, hstart, hfinish, htiming, hwindow]
  cases (s.settings.start <|> start) with
  | none => rfl
  | some a =>
      cases (s.settings.finish <|> finish) with
      | none => rfl
      | some b =>
          simp only [Option.map_some, Draft.map]
          cases (s.timing.drive cfg clock s.settings).outcome <;> rfl

theorem ChainSpec.plansFrom_mapValues (c : ChainSpec α) (f : α → α) (index : Nat)
    (start opens : Option α) :
    (plansFrom cfg clock index (start.map f) opens (c.map (·.mapValues f))).outcome =
      (plansFrom cfg clock index start opens c).outcome.map (·.map (·.mapValues f)) := by
  induction c generalizing index start opens with
  | nil => rfl
  | cons s rest ih =>
      have hopening : (s.mapValues f).opening opens = (s.opening opens).mapValues f := rfl
      have hplan := (s.opening opens).plan_mapValues cfg clock f start none
      rw [Option.map_none] at hplan
      simp only [List.map_cons, plansFrom, hopening, hplan]
      cases ((s.opening opens).plan cfg clock start none).outcome with
      | error e => rfl
      | ok p =>
          -- The next one starts at the mapped end, as the induction hypothesis has it.
          have htail := ih (index + 1) (some p.level.finish) p.closes
          have hcloses : (p.mapValues f).closes = p.closes := rfl
          simp only [Except.map, hcloses]
          rw [Option.map_some] at htail
          show Except.map _ (plansFrom cfg clock (index + 1) (some (f p.level.finish)) p.closes
            (rest.map (·.mapValues f))).outcome = _
          rw [htail]
          cases (plansFrom cfg clock (index + 1) (some p.level.finish) p.closes rest).outcome <;>
            rfl

theorem ChainSpec.plans_mapValues (c : ChainSpec α) (f : α → α) (current : Option α) :
    (plans (c.map (·.mapValues f)) cfg clock (current.map f)).outcome =
      (c.plans cfg clock current).outcome.map (·.map (·.mapValues f)) := by
  cases c with
  | nil => rfl
  | cons s rest => exact plansFrom_mapValues (s :: rest) f 0 current none

/-- A chain that has plans has at least one. -/
theorem ChainSpec.ne_nil_of_plans {c : ChainSpec α} {current : Option α} {ps : List (Plan α)}
    (h : (c.plans cfg clock current).outcome = .ok ps) : ps ≠ [] := by
  cases c with
  | nil => cases h
  | cons s rest =>
      simp only [plans, plansFrom] at h
      cases hplan : ((s.opening none).plan cfg clock current none).outcome with
      | error e =>
          rw [hplan] at h
          cases h
      | ok p =>
          simp only [hplan] at h
          cases hrest : (plansFrom cfg clock 1 (some p.level.finish) p.closes rest).outcome with
          | error e => simp [hrest, Except.map] at h
          | ok later =>
              simp only [Nat.zero_add, hrest, Except.map, Except.ok.injEq] at h
              exact h ▸ List.cons_ne_nil _ _

end Values

variable {K : Type} [Field K] [LinearOrder K] [FloorRing K] [Elementary K] {cfg : Config}
  {clock : Clock K}

/-! ## Plans of moved descriptions -/

section Times

theorem Window.bounds?_delayed (opens closes lasts : Option K) (d : K) :
    bounds? (opens.map (· + d)) (closes.map (· + d)) lasts (clock.delayed d) =
      (bounds? opens closes lasts clock).map fun (o, c) => (o + d, c + d) := by
  delta bounds?
  cases opens <;> cases closes <;> cases lasts <;>
    simp [Clock.delayed, add_right_comm, sub_add_eq_add_sub]

theorem Plan.closes_delayed (p : Plan K) (d : K) :
    (p.delayed d).closes = p.closes.map (· + d) := by
  obtain ⟨level, drive⟩ := p
  cases drive <;> rfl

variable [IsStrictOrderedRing K]

theorem Window.resolve_delayed (opens closes lasts : Option K) (d : K) :
    resolve (opens.map (· + d)) (closes.map (· + d)) lasts (clock.delayed d) =
      ((resolve opens closes lasts clock).map (·.delayed d)).mapError (.delayed d) := by
  rw [resolve, resolve, bounds?_delayed]
  cases bounds? opens closes lasts clock with
  | none => rfl
  | some bounds =>
      obtain ⟨o, c⟩ := bounds
      simp only [Option.map_some, make, add_lt_add_iff_right]
      split <;> rfl

theorem Timing.drive_delayed (timing : Timing K) (cfg : Config) (clock : Clock K) (s : Settings K)
    (d : K) :
    ((timing.delayed d).drive cfg (clock.delayed d) (s.delayed d)).outcome =
      ((timing.drive cfg clock s).outcome.map (.delayed d)).mapError (.delayed d) := by
  induction timing generalizing s with
  | clock =>
      simp only [delayed, drive, Draft.map, Settings.window, Settings.delayed,
        Window.resolve_delayed]
      cases Window.resolve s.opens s.closes s.lasts clock <;> rfl
  | fixed ratio => rfl
  | tween inner timing ih =>
      have hlevel : (inner.delayed d).innerLevel cfg = inner.innerLevel cfg := rfl
      simp only [delayed, drive, Draft.map, ih, hlevel]
      cases (timing.drive cfg clock inner).outcome <;> rfl

theorem Spec.plan_delayed (s : Spec K) (cfg : Config) (clock : Clock K) (d : K)
    (start finish : Option K) :
    ((s.delayed d).plan cfg (clock.delayed d) start finish).outcome =
      ((s.plan cfg clock start finish).outcome.map (·.delayed d)).mapError (.delayed d) := by
  have hdrive := s.timing.drive_delayed cfg clock s.settings d
  simp only [plan, delayed, Settings.delayed] at hdrive ⊢
  cases (s.settings.start <|> start) with
  | none => rfl
  | some a =>
      cases (s.settings.finish <|> finish) with
      | none => rfl
      | some b =>
          simp only [Draft.map, hdrive]
          cases (s.timing.drive cfg clock s.settings).outcome <;> rfl

theorem ChainSpec.plansFrom_delayed (c : ChainSpec K) (d : K) (index : Nat)
    (start opens : Option K) :
    (plansFrom cfg (clock.delayed d) index start (opens.map (· + d))
        (c.map (·.delayed d))).outcome =
      ((plansFrom cfg clock index start opens c).outcome.map
        (·.map (·.delayed d))).mapError (.delayed d) := by
  induction c generalizing index start opens with
  | nil => rfl
  | cons s rest ih =>
      have hopening : (s.delayed d).opening (opens.map (· + d)) = (s.opening opens).delayed d := by
        obtain ⟨settings, timing⟩ := s
        cases hs : settings.opens <;> simp [Spec.delayed, Spec.opening, Settings.delayed, hs]
      have hplan := (s.opening opens).plan_delayed cfg clock d start none
      simp only [List.map_cons, plansFrom, hopening, hplan]
      cases ((s.opening opens).plan cfg clock start none).outcome with
      | error e => rfl
      | ok p =>
          -- The window ends later by `d`, and so begins the next one.
          have htail := ih (index + 1) (some p.level.finish) p.closes
          rw [← Plan.closes_delayed] at htail
          show Except.map _ (plansFrom cfg (clock.delayed d) (index + 1) (some p.level.finish)
            (p.delayed d).closes (rest.map (·.delayed d))).outcome = _
          rw [htail]
          simp only [Except.map]
          cases (plansFrom cfg clock (index + 1) (some p.level.finish) p.closes rest).outcome <;>
            rfl

theorem ChainSpec.plans_delayed (c : ChainSpec K) (d : K) (current : Option K) :
    (plans (c.map (·.delayed d)) cfg (clock.delayed d) current).outcome =
      ((c.plans cfg clock current).outcome.map (·.map (·.delayed d))).mapError (.delayed d) := by
  cases c with
  | nil => rfl
  | cons s rest => exact plansFrom_delayed (s :: rest) d 0 current none

end Times

/-! ## Samples of plans -/

section Samples

theorem affine_lerp (a b start finish x : K) :
    affine a b start + (affine a b finish - affine a b start) * x =
      affine a b (start + (finish - start) * x) := by
  simp only [affine]
  ring

theorem Level.sampleAt_affine (level : Level K) (a b t : K) :
    Level.sampleAt { level with start := affine a b level.start
                                finish := affine a b level.finish } t =
      (level.sampleAt t).map (affine a b) := by
  simp only [Level.sampleAt]
  cases level.extend.normalize t with
  | before => rfl
  | past => rfl
  | along u => exact congrArg Sample.value (affine_lerp a b _ _ _)

theorem Plan.sampleAt_affine (p : Plan K) (a b time : K) :
    (p.mapValues (affine a b)).sampleAt time = (p.sampleAt time).map (affine a b) :=
  p.level.sampleAt_affine a b (p.drive.ratioAt time)

theorem Plan.sampleInTurn_affine {ps : List (Plan K)} (nonempty : ps ≠ []) (a b time : K) :
    sampleInTurn (ps.map (·.mapValues (affine a b))) time =
      (sampleInTurn ps time).map (affine a b) := by
  induction ps with
  | nil => exact absurd rfl nonempty
  | cons p rest ih =>
      cases rest with
      | nil => exact p.sampleAt_affine a b time
      | cons next rest =>
          have hrest := ih (List.cons_ne_nil _ _)
          simp only [List.map_cons] at hrest ⊢
          rw [sampleInTurn, sampleInTurn, p.sampleAt_affine, Sample.isEnded_map, hrest]
          split <;> rfl

theorem Drive.ratioAt_delayed (drive : Drive K) (d time : K) :
    (drive.delayed d).ratioAt (time + d) = drive.ratioAt time := by
  induction drive with
  | window w =>
      simp only [delayed, ratioAt, Window.delayed, Window.inverseDuration, Window.duration,
        add_sub_add_right_eq_sub]
  | fixed ratio => rfl
  | tween level drive ih => simp only [delayed, ratioAt, ih]

theorem Plan.sampleAt_delayed (p : Plan K) (d time : K) :
    (p.delayed d).sampleAt (time + d) = p.sampleAt time := by
  simp only [sampleAt, delayed, Drive.ratioAt_delayed]

theorem Plan.sampleInTurn_delayed (ps : List (Plan K)) (d time : K) :
    sampleInTurn (ps.map (·.delayed d)) (time + d) = sampleInTurn ps time := by
  induction ps with
  | nil => rfl
  | cons p rest ih =>
      cases rest with
      | nil => exact p.sampleAt_delayed d time
      | cons next rest =>
          simp only [List.map_cons] at ih ⊢
          rw [sampleInTurn, sampleInTurn, p.sampleAt_delayed, ih]

end Samples

/-! ## Performances -/

section Performances

variable {V : Vocabulary} {M : Type} {host : Host K V M}

theorem gives_playSpec_affine (w : World K V M) (s : Spec K) (current : Option K)
    (clocks : List (Clock K)) (a b : K) :
    host.Gives w
      (Routine.playSpec (s.mapValues (affine a b)) cfg clock (current.map (affine a b)) clocks)
      (((s.plan cfg clock current none).outcome.map fun p =>
        clocks.map fun c => p.sampleAt c.time).map (·.map (·.map (affine a b)))) := by
  have hplay := gives_playSpec host w (s.mapValues (affine a b)) cfg clock
    (current.map (affine a b)) clocks
  have hplan := s.plan_mapValues cfg clock (affine a b) current none
  rw [Option.map_none] at hplan
  rw [hplan] at hplay
  cases h : (s.plan cfg clock current none).outcome with
  | error e => simpa [h, Except.map] using hplay
  | ok p => simpa [h, Except.map, Function.comp_def, Plan.sampleAt_affine] using hplay

theorem gives_playChain_affine (w : World K V M) (c : ChainSpec K) (current : Option K)
    (clocks : List (Clock K)) (a b : K) :
    host.Gives w
      (Routine.playChain (c.map (·.mapValues (affine a b))) cfg clock (current.map (affine a b))
        clocks)
      (((c.plans cfg clock current).outcome.map fun ps =>
        clocks.map fun c => Plan.sampleInTurn ps c.time).map (·.map (·.map (affine a b)))) := by
  have hplay := gives_playChain host w (c.map (·.mapValues (affine a b))) cfg clock
    (current.map (affine a b)) clocks
  rw [c.plans_mapValues] at hplay
  cases h : (c.plans cfg clock current).outcome with
  | error e => simpa [h, Except.map] using hplay
  | ok ps =>
      have hsamples := Plan.sampleInTurn_affine (ChainSpec.ne_nil_of_plans h) a b
      simpa [h, Except.map, Function.comp_def, hsamples] using hplay

variable [IsStrictOrderedRing K]

theorem gives_playSpec_delayed (w : World K V M) (s : Spec K) (current : Option K)
    (clocks : List (Clock K)) (d : K) :
    host.Gives w
      (Routine.playSpec (s.delayed d) cfg (clock.delayed d) current (clocks.map (·.delayed d)))
      (((s.plan cfg clock current none).outcome.map fun p =>
        clocks.map fun c => p.sampleAt c.time).mapError (.delayed d)) := by
  have hplay := gives_playSpec host w (s.delayed d) cfg (clock.delayed d) current
    (clocks.map (·.delayed d))
  rw [s.plan_delayed] at hplay
  cases h : (s.plan cfg clock current none).outcome with
  | error e => simpa [h, Except.map, Except.mapError] using hplay
  | ok p =>
      simpa [h, Except.map, Except.mapError, Function.comp_def, Clock.delayed,
        Plan.sampleAt_delayed] using hplay

theorem gives_playChain_delayed (w : World K V M) (c : ChainSpec K) (current : Option K)
    (clocks : List (Clock K)) (d : K) :
    host.Gives w
      (Routine.playChain (c.map (·.delayed d)) cfg (clock.delayed d) current
        (clocks.map (·.delayed d)))
      (((c.plans cfg clock current).outcome.map fun ps =>
        clocks.map fun c => Plan.sampleInTurn ps c.time).mapError (.delayed d)) := by
  have hplay := gives_playChain host w (c.map (·.delayed d)) cfg (clock.delayed d)
    current (clocks.map (·.delayed d))
  rw [c.plans_delayed] at hplay
  cases h : (c.plans cfg clock current).outcome with
  | error e => simpa [h, Except.map, Except.mapError] using hplay
  | ok ps =>
      simpa [h, Except.map, Except.mapError, Function.comp_def, Clock.delayed,
        Plan.sampleInTurn_delayed] using hplay

/-- **Performances know no absolute time and no absolute value.** Move the clock at building, all
times that a description states at any level, and the clocks at sampling by the same span: the
outcome is the same, be it samples or an error, but for the window that an error may speak of. Or
let the values that its first level runs between, the current value included, take another scale and
another origin: each sample does so too, and stays over or not over. The same goes for a chain, when
this is done to each of its segments. -/
theorem performances_follow_scales (host : Host K V M) (w : World K V M) (cfg : Config)
    (built : Clock K) (current : Option K) (clocks : List (Clock K)) (d a b : K) :
    (∀ s : Spec K, ∃ outcome,
      host.Gives w (Routine.playSpec s cfg built current clocks) outcome ∧
      host.Gives w
        (Routine.playSpec (s.delayed d) cfg (built.delayed d) current (clocks.map (·.delayed d)))
        (outcome.mapError (.delayed d)) ∧
      host.Gives w
        (Routine.playSpec (s.mapValues (affine a b)) cfg built (current.map (affine a b)) clocks)
        (outcome.map (·.map (·.map (affine a b))))) ∧
    (∀ c : ChainSpec K, ∃ outcome,
      host.Gives w (Routine.playChain c cfg built current clocks) outcome ∧
      host.Gives w
        (Routine.playChain (c.map (·.delayed d)) cfg (built.delayed d) current
          (clocks.map (·.delayed d)))
        (outcome.mapError (.delayed d)) ∧
      host.Gives w
        (Routine.playChain (c.map (·.mapValues (affine a b))) cfg built
          (current.map (affine a b)) clocks)
        (outcome.map (·.map (·.map (affine a b))))) := by
  constructor
  · intro s
    exact ⟨_, gives_playSpec host w s cfg built current clocks,
      gives_playSpec_delayed w s current clocks d, gives_playSpec_affine w s current clocks a b⟩
  · intro c
    exact ⟨_, gives_playChain host w c cfg built current clocks,
      gives_playChain_delayed w c current clocks d, gives_playChain_affine w c current clocks a b⟩

end Performances

namespace Encore

/-! A chain whose second segment is driven by a tween that is to stop at a stated time. -/

open TwoStretches (host)

def chain : ChainSpec ℚ :=
  [⟨{ start := some 0, finish := some 10, lasts := some 2 }, .clock⟩,
    ⟨{ finish := some 30 }, .tween { closes := some 7, lasts := some 4 } .clock⟩]

/-- A hundred units later it plays as before, and on another scale it plays there. -/
theorem plays_again :
    host.Gives { memory := () } (Routine.playChain chain {} ⟨1, 0⟩ none [⟨0, 0⟩, ⟨5, 2⟩])
        (.ok [.value 0, .value 20]) ∧
      host.Gives { memory := () }
        (Routine.playChain (chain.map (·.delayed 100)) {} ⟨101, 0⟩ none [⟨100, 0⟩, ⟨105, 2⟩])
        (.ok [.value 0, .value 20]) ∧
      host.Gives { memory := () }
        (Routine.playChain (chain.map (·.mapValues (affine 2 1))) {} ⟨1, 0⟩ none
          [⟨0, 0⟩, ⟨5, 2⟩])
        (.ok [.value 1, .value 41]) := by
  obtain ⟨outcome, hplays, hlater, hscaled⟩ :=
    (performances_follow_scales host { memory := () } {} ⟨1, 0⟩ none [⟨0, 0⟩, ⟨5, 2⟩] 100 2 1).2
      chain
  obtain rfl : outcome = .ok [.value 0, .value 20] := by
    rw [hplays.unique (gives_playChain host { memory := () } chain {} ⟨1, 0⟩ none [⟨0, 0⟩, ⟨5, 2⟩])]
    decide +kernel
  refine ⟨hplays, ?_, ?_⟩
  · have hclock : (⟨1, 0⟩ : Clock ℚ).delayed 100 = ⟨101, 0⟩ := by norm_num [Clock.delayed]
    have hclocks : ([⟨0, 0⟩, ⟨5, 2⟩] : List (Clock ℚ)).map (·.delayed 100) =
        [⟨100, 0⟩, ⟨105, 2⟩] := by
      norm_num [Clock.delayed]
    rwa [hclock, hclocks] at hlater
  · have hsamples : ([.value 0, .value 20] : List (Sample ℚ)).map (·.map (affine 2 1)) =
        [.value 1, .value 41] := by
      decide +kernel
    rwa [Except.map, hsamples] at hscaled

end Encore

end Inbetween
