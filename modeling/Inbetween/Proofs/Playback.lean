import Mathlib.Data.Rat.Floor
import Inbetween.Proofs.Timelines
import Inbetween.Proofs.Chains

/-!
# Chains play timelines

The chain that is built from segments that follow the clock and hold their ends plays the timeline
of these segments: whenever it is sampled, it asks its segments one after the other up to the active
one, and passes on what that one says.
-/

namespace Inbetween

open Act

/-! ## Plans of stretches -/

section Plans

variable {α : Type} [Scalar α] {cfg : Config} {clock : Clock α}

def Stretch.plan (x : Stretch α) : Plan α :=
  ⟨⟨x.start, x.finish, x.easing, .constant⟩, .window ⟨x.opens, x.closes⟩⟩

/-- The plan of a segment that follows the clock and holds its ends is that of its stretch. -/
theorem Spec.stretch?_of_plan {s : Spec α} {p : Plan α} (clocked : s.timing = .clock)
    (holds : s.settings.extend.getD cfg.extend = .constant)
    (h : (s.plan cfg clock none none).outcome = .ok p) :
    ∃ x, s.stretch? cfg clock = some x ∧ p = x.plan := by
  obtain ⟨start, finish, drive, hstart, hfinish, hdrive, rfl⟩ := Spec.plan_eq_ok.mp h
  rw [Option.orElse_eq_orElse, Option.orElse_eq_or, Option.or_none] at hstart hfinish
  rw [clocked] at hdrive
  obtain ⟨w, hw, rfl⟩ := Draft.outcome_map_eq_ok.mp hdrive
  obtain ⟨hbounds, hrises⟩ := Window.resolve_eq_ok.mp hw
  refine ⟨⟨start, finish, w.opens, w.closes, s.settings.easing.getD cfg.easing, hrises⟩,
    Spec.stretch?_eq_some.mpr ⟨hstart, hfinish, hbounds, rfl⟩, ?_⟩
  rw [Settings.level, holds]
  rfl

theorem ChainSpec.forall_filledFrom {P : Spec α → Prop} {c : ChainSpec α} {start opens : Option α}
    (fill : ∀ s start opens, P s → P (s.filledIn start opens)) (h : ∀ s ∈ c, P s) :
    ∀ s ∈ c.filledFrom clock start opens, P s := by
  induction c generalizing start opens with
  | nil => simp [filledFrom]
  | cons s rest ih =>
      obtain ⟨hs, hrest⟩ := List.forall_mem_cons.mp h
      exact List.forall_mem_cons.mpr ⟨fill s start opens hs, ih hrest⟩

theorem exists_timeline {c : ChainSpec α} {plans : List (Plan α)}
    (clocked : ∀ s ∈ c, s.timing = .clock)
    (holds : ∀ s ∈ c, s.settings.extend.getD cfg.extend = .constant)
    (h : List.Forall₂ (fun s p => (s.plan cfg clock none none).outcome = .ok p) c plans) :
    ∃ ts : Timeline α, List.Forall₂ (fun s x => s.stretch? cfg clock = some x) c ts ∧
      plans = ts.map Stretch.plan := by
  induction h with
  | nil => exact ⟨[], .nil, rfl⟩
  | cons hs _ ih =>
      obtain ⟨hclock, clocked⟩ := List.forall_mem_cons.mp clocked
      obtain ⟨hold, holds⟩ := List.forall_mem_cons.mp holds
      obtain ⟨x, hx, rfl⟩ := Spec.stretch?_of_plan hclock hold hs
      obtain ⟨ts, hts, rfl⟩ := ih clocked holds
      exact ⟨x :: ts, .cons hx hts, rfl⟩

end Plans

variable {K : Type} [Field K] [LinearOrder K] [IsStrictOrderedRing K] [FloorRing K] [Elementary K]
  {V : Vocabulary} {M : Type}

/-- Time ratios below 0 are before the opening, and those above 1 after the closing. -/
theorem Stretch.sampleAt_plan (x : Stretch K) (time : K) :
    x.plan.sampleAt time = x.sampleAt time := by
  have hspan : 0 < x.closes - x.opens := sub_pos.mpr x.rises
  have hratio : (Drive.window ⟨x.opens, x.closes⟩).ratioAt time =
      (time - x.opens) / (x.closes - x.opens) := by
    rw [Drive.ratioAt, Window.inverseDuration, Window.duration, Scalar.exact_one, one_div,
      ← div_eq_mul_inv]
  have hbefore : (time - x.opens) / (x.closes - x.opens) < 0 ↔ time < x.opens := by
    rw [div_lt_iff₀ hspan, zero_mul, sub_neg]
  have hpast : 1 < (time - x.opens) / (x.closes - x.opens) ↔ x.closes < time := by
    rw [lt_div_iff₀ hspan, one_mul, sub_lt_sub_iff_right]
  rw [Plan.sampleAt, Stretch.plan, hratio, Level.sampleAt, Extend.normalize, Scalar.exact_zero,
    Scalar.exact_one, Stretch.sampleAt, Stretch.valueAt]
  rcases lt_or_ge time x.opens with h | h
  · have hopen : ¬ x.closes < time := not_lt.mpr (h.trans x.rises).le
    rw [if_pos (hbefore.mpr h), if_neg hopen, if_pos h]
    rfl
  · rw [if_neg fun h' => h.not_gt (hbefore.mp h'), if_neg h.not_gt]
    rcases lt_or_ge x.closes time with h' | h'
    · rw [if_pos (hpast.mpr h'), if_pos h']
      rfl
    · rw [if_neg fun h'' => h'.not_gt (hpast.mp h''), if_neg h'.not_gt]
      rfl

/-! ## Sampling a chain -/

section Sampling

open Evaluate

variable {host : Host K V M} {w w' : World K V M}

/-- A segment is sampled, and nothing else happens. -/
theorem answers_sample_stretch (host : Host K V M) {b : AnimationId} {x : Stretch K}
    (h : w.scene.Plays b x.plan) (clock : Clock K) :
    host.Answers (.sample b clock) w (x.sampleAt clock.time)
      (w.record [.sampleBegan b none, .sampleFinished b none (x.sampleAt clock.time)]) := by
  obtain ⟨_, stands, ⟨win⟩⟩ := h
  have hquiet := (World.Quietly.refl (w.lend b none)).lend (x.plan.sampleAt clock.time)
  rw [← x.sampleAt_plan]
  rw [List.nil_append] at hquiet
  rw [← hquiet.eq_record]
  exact Host.answers_iff.mpr (yields_sample_level stands (yields_done.mpr ⟨rfl, rfl⟩))

/-- What is left behind by asking the segments up to the active one. -/
def Timeline.asked (ts : Timeline K) (ids : List AnimationId) (time : K) : List (Event K V) :=
  ((ids.zip ts).take (ts.active time + 1)).flatMap fun (b, x) =>
    [.sampleBegan b none, .sampleFinished b none (x.sampleAt time)]

omit [IsStrictOrderedRing K] in
theorem Timeline.asked_singleton (x : Stretch K) (b : AnimationId) (time : K) :
    asked (V := V) [x] [b] time =
      [.sampleBegan b none, .sampleFinished b none (x.sampleAt time)] := by
  simp [asked, active_singleton]

omit [IsStrictOrderedRing K] in
theorem Timeline.asked_cons_cons (x y : Stretch K) (rest : Timeline K) (b : AnimationId)
    (ids : List AnimationId) (time : K) :
    asked (V := V) (x :: y :: rest) (b :: ids) time =
      .sampleBegan b none :: .sampleFinished b none (x.sampleAt time) ::
        if time ≤ x.closes then [] else asked (y :: rest) ids time := by
  rw [asked, active_cons_cons, List.zip_cons_cons]
  by_cases h : time ≤ x.closes
  · simp [h]
  · simp [h, asked]

/-- A chain asks its segments in their order, until one has not closed. -/
theorem yields_chain_timeline (host : Host K V M) {ids : List AnimationId} {ts : Timeline K}
    (nonempty : ts ≠ []) (h : List.Forall₂ (fun b x => w.scene.Plays b x.plan) ids ts)
    (clock : Clock K) :
    (chain clock ids).Yields host w (ts.sampleAt clock.time)
      (w.record (ts.asked ids clock.time)) := by
  -- The world changes from segment to segment, but its scene stays.
  generalize hscene : w.scene = scene at h
  induction h generalizing w with
  | nil => exact absurd rfl nonempty
  | @cons b x ids ts hx hrest ih =>
      have hsample := answers_sample_stretch host (hscene ▸ hx) clock
      cases hrest with
      | nil =>
          rw [Timeline.sampleAt_singleton, Timeline.asked_singleton]
          exact yields_ask.mpr hsample
      | @cons b' y ids ts hy hrest =>
          rw [Timeline.sampleAt_cons_cons, Timeline.asked_cons_cons]
          show ((ask (.sample b clock)).bind fun s => _).Yields host w _ _
          refine Yields.bind (yields_ask.mpr hsample) ?_
          by_cases hopen : clock.time ≤ x.closes
          · rw [if_pos hopen, if_pos hopen, Stretch.sampleAt, if_neg hopen.not_gt]
            exact yields_done.mpr ⟨rfl, rfl⟩
          · have hlater := ih (w := w.record [.sampleBegan b none,
              .sampleFinished b none (x.sampleAt clock.time)]) (List.cons_ne_nil _ _) hscene
            rw [World.record_record] at hlater
            rw [if_neg hopen, if_neg hopen]
            have hended : x.sampleAt clock.time = .ended x.finish :=
              if_pos (not_le.mp hopen)
            rw [hended] at hlater ⊢
            exact hlater

theorem answers_sample_chain {a : AnimationId} {ids : List AnimationId} {ts : Timeline K}
    (stands : (w.scene.animation a).strategy = .chain ids) (nonempty : ts ≠ [])
    (h : List.Forall₂ (fun b x => w.scene.Plays b x.plan) ids ts) (clock : Clock K) :
    host.Answers (.sample a clock) w (ts.sampleAt clock.time)
      (w.record (.sampleBegan a none :: (ts.asked ids clock.time ++
        [.sampleFinished a none (ts.sampleAt clock.time)]))) := by
  have hchain := yields_chain_timeline host (w := w.note (.sampleBegan a none)) nonempty h clock
  refine Host.answers_iff.mpr (yields_sample_iff.mpr
    ⟨(w.note (.sampleBegan a none)).record (ts.asked ids clock.time), ?_, ?_⟩)
  · rw [stands]
    exact hchain
  · simp [World.note_eq_record]

/-- **Chains play timelines.** Let a chain be built from segments that follow the clock and hold
their ends. Its filled segments make a timeline, and at every time the chain gives the sample of the
active stretch after asking just the segments up to that one. It is over exactly when all stretches
have closed, and then it gives the last end. The active stretch only moves forward, and a chain that
is over stays over. If no segment behind the first one says where and when it starts, the stretches
tile the time. -/
theorem chain_plays_timeline (host : Host K V M) {c : ChainSpec K} {cfg : Config}
    {built : Clock K} {current : Option K} {w w' : World K V M} {a : AnimationId}
    (h : host.Answers (.buildChain c cfg built current) w (.ok a) w')
    (clocked : ∀ s ∈ c, s.timing = .clock)
    (holds : ∀ s ∈ c, s.settings.extend.getD cfg.extend = .constant) :
    ∃ (ts : Timeline K) (ids : List AnimationId),
      List.Forall₂ (fun s x => s.stretch? cfg built = some x) (c.filled built current) ts ∧
      (w'.scene.animation a).strategy = .chain ids ∧ ids.length = ts.length ∧
      (∀ w₁, w₁.scene = w'.scene → ∀ clock,
        host.Answers (.sample a clock) w₁ (ts.sampleAt clock.time)
          (w₁.record (.sampleBegan a none :: (ts.asked ids clock.time ++
            [.sampleFinished a none (ts.sampleAt clock.time)])))) ∧
      (∃ last, ts.getLast? = some last ∧ ∀ time v,
        ts.sampleAt time = .ended v ↔ v = last.finish ∧ ∀ x ∈ ts, x.closes < time) ∧
      Monotone ts.active ∧
      (∀ time time' v, time ≤ time' → ts.sampleAt time = .ended v →
        ts.sampleAt time' = .ended v) ∧
      ((∀ s ∈ c.tail, s.settings.start = none ∧ s.settings.opens = none) → ts.Tiles) := by
  obtain ⟨nonempty, plans, hplans, rfl, hscene⟩ := plans_of_buildChain h
  have hclocked : ∀ s ∈ c.filled built current, s.timing = .clock :=
    ChainSpec.forall_filledFrom (fun _ _ _ hs => hs) clocked
  have hholds : ∀ s ∈ c.filled built current, s.settings.extend.getD cfg.extend = .constant :=
    ChainSpec.forall_filledFrom (fun _ _ _ hs => hs) holds
  obtain ⟨ts, hts, rfl⟩ := exists_timeline hclocked hholds hplans
  obtain ⟨stands, hplays⟩ := Scene.plays_installChain (ts.map Stretch.plan) w.scene
  rw [← hscene] at stands hplays
  rw [List.forall₂_map_right_iff] at hplays
  have hts_ne : ts ≠ [] := by
    rintro rfl
    exact ChainSpec.filled_ne_nil nonempty current (List.forall₂_nil_right_iff.mp hts)
  obtain ⟨last, hlast⟩ := Option.isSome_iff_exists.mp (List.getLast?_isSome.mpr hts_ne)
  have hended := Timeline.sampleAt_eq_ended hlast
  refine ⟨ts, _, hts, stands.1, hplays.length_eq, ?_, ⟨last, hlast, hended⟩,
    Timeline.monotone_active ts, ?_, ?_⟩
  · intro w₁ hw₁ clock
    rw [← hw₁] at stands hplays
    exact answers_sample_chain stands.1 hts_ne hplays clock
  · intro time time' v hle hv
    obtain ⟨rfl, hclosed⟩ := (hended time v).mp hv
    exact (hended time' _).mpr ⟨rfl, fun x hx => (hclosed x hx).trans_le hle⟩
  · intro unstated
    exact Timeline.tiles_of_adjoining (ChainSpec.isChain_of_filled clocked unstated hts)

end Sampling

namespace TwoStretches

/-! A chain of two segments, the second of which takes over where and when it starts. -/

/-- The two curves of the chain need no elementary functions. -/
instance : Elementary ℚ := ⟨fun _ => 0, fun _ => 0, fun _ => 1, fun _ => 1, 3⟩

def vocabulary : Vocabulary := ⟨Empty, Empty, Empty⟩

def host : Host ℚ vocabulary Unit := ⟨Empty.elim, Empty.elim, Empty.elim⟩

def chain : ChainSpec ℚ :=
  [⟨{ start := some 0, finish := some 10, lasts := some 2 }, .clock⟩,
    ⟨{ finish := some 30, lasts := some 4, easing := some .inQuad }, .clock⟩]

def timeline : Timeline ℚ :=
  [⟨0, 10, 1, 3, .linear, by decide +kernel⟩, ⟨10, 30, 3, 7, .inQuad, by decide +kernel⟩]

/-- Halfway through the second segment its curve is at a quarter. -/
theorem quarter_then_over :
    ∃ a w, host.Answers (.buildChain chain {} (.startingAt 1) none) { memory := () } (.ok a) w ∧
      timeline.Tiles ∧
      ∃ w₁ w₂, host.Answers (.sample a ⟨5, 0⟩) w (.value 15) w₁ ∧
        host.Answers (.sample a ⟨8, 1⟩) w₁ (.ended 30) w₂ := by
  have hplans : List.Forall₂ (fun s p => (s.plan {} (.startingAt 1) none none).outcome = .ok p)
      (chain.filled (.startingAt 1) none) (timeline.map Stretch.plan) := by
    decide +kernel
  obtain ⟨a, w, built⟩ : ∃ a w, host.Answers (.buildChain chain {} (.startingAt 1) none)
      { memory := () } (.ok a) w :=
    ⟨_, _, (answers_buildChain_of_plans (List.cons_ne_nil _ _) hplans).mpr rfl⟩
  obtain ⟨ts, ids, hts, -, -, hsample, -, -, -, htiles⟩ :=
    chain_plays_timeline host built (by decide +kernel) (by decide +kernel)
  obtain rfl : ts = timeline := by
    have hunique : Relator.RightUnique fun (s : Spec ℚ) x =>
        s.stretch? {} (.startingAt 1) = some x :=
      fun _ _ _ hx hy => Option.some.inj (hx.symm.trans hy)
    exact List.right_unique_forall₂' hunique hts (by decide +kernel)
  have hquarter : timeline.sampleAt 5 = .value 15 := by decide +kernel
  have hover : timeline.sampleAt 8 = .ended 30 := by decide +kernel
  obtain ⟨w₁, hscene, hfirst⟩ : ∃ w₁, w₁.scene = w.scene ∧
      host.Answers (.sample a ⟨5, 0⟩) w (timeline.sampleAt 5) w₁ := ⟨_, rfl, hsample w rfl ⟨5, 0⟩⟩
  have hsecond := hsample w₁ hscene ⟨8, 1⟩
  rw [hquarter] at hfirst
  rw [hover] at hsecond
  exact ⟨a, w, built, htiles (by decide +kernel), w₁, _, hfirst, hsecond⟩

end TwoStretches

end Inbetween
