import Mathlib.Tactic.LinearCombination
import Inbetween.Proofs.Playback

/-!
# Curves and their chords

A cubic curve leads from its first control point to its last, and so does the interpolation between
these two points, its chord. Driven by the same time in the same mode, the two come to a sample in
the same cases, and outside a window that holds its ends it is the same sample. So what happens at
the end happens for both. In between they differ, unless the control points are evenly spaced:
then the curve is its chord, as far as one goes on either side.
-/

namespace Inbetween

open Act Evaluate

variable {α : Type} {V : Vocabulary} {M : Type}

/-- The interpolation from the first control point to the last. -/
def Bezier.chord (b : Bezier α) (time : TimeSource α V) (mode : Extend) (easing : Easing) :
    Interpolation α V where
  start := .constant b.p0
  finish := .constant b.p3
  time := time
  easing := easing
  extend := mode

section Samples

variable [Scalar α] {host : Host α V M} {w w' w'' : World α V M} {b : Bezier α}
  {time : TimeSource α V} {mode : Extend} {easing : Easing} {clock : Clock α}

/-! ## Before and past the window -/

theorem Phase.isEnded_blend (phase : Phase α) (easing : Easing) (b : Bezier α) :
    (phase.blend easing b.p0 b.p3).isEnded = (phase.trace b).isEnded := by
  cases phase <;> rfl

theorem Extend.normalize_constant_of_lt {t : α} (h : t < 0.0) :
    Extend.constant.normalize t = .before := if_pos h

theorem Extend.normalize_constant_of_gt {t : α} (h : ¬ t < 0.0) (h' : t > 1.0) :
    Extend.constant.normalize t = .past := (if_neg h).trans (if_pos h')

/-! ## Samples of both -/

theorem yields_curve {a : AnimationId} {s : Sample α} :
    (strategy host a clock (.bezier b time mode)).Yields host w s w' ↔
      ∃ t, (ratio clock time).Yields host w t w' ∧ s = (mode.normalize t).trace b := by
  simp only [strategy, bind_eq_bind, yields_bind, pure_eq_done, yields_done]
  constructor
  · rintro ⟨t, w₁, ht, rfl, rfl⟩
    exact ⟨t, ht, rfl⟩
  · rintro ⟨t, ht, rfl⟩
    exact ⟨t, w', ht, rfl, rfl⟩

theorem yields_chord {s : Sample α} :
    (interpolation clock (b.chord time mode easing)).Yields host w s w' ↔
      ∃ t, (ratio clock time).Yields host w t w' ∧
        s = (mode.normalize t).blend easing b.p0 b.p3 := by
  rw [yields_interpolation]
  constructor
  · rintro ⟨t, w₁, x, w₂, y, ht, hx, hy, rfl⟩
    obtain ⟨rfl, rfl⟩ := hx.unique answers_read_constant
    obtain ⟨rfl, rfl⟩ := hy.unique answers_read_constant
    exact ⟨t, ht, rfl⟩
  · rintro ⟨t, ht, rfl⟩
    exact ⟨t, w', b.p0, w', b.p3, ht, answers_read_constant, answers_read_constant, rfl⟩

/-! ## Hooks -/

/-- To evaluate the animation through the link comes to running the hook, told the end value: the
sample is over, and the hook is installed then. -/
def Host.RunsHook (host : Host α V M) (a : AnimationId) (l : LinkId) (clock : Clock α)
    (w : World α V M) (hook : V.Hook) (v : α) : Prop :=
  ∃ w₁, (sample host (some l) a clock).Yields host w (.ended v) w₁ ∧
    (w₁.scene.animation a).hook = some hook

/-- From there on the evaluation is the run of the hook. -/
theorem Host.RunsHook.yields_evaluateIn {a : AnimationId} {l : LinkId} {hook : V.Hook} {v : α}
    (h : host.RunsHook a l clock w hook v) :
    ∃ w₁ : World α V M, ∀ x w₂, (evaluateIn host a l clock).Yields host w x w₂ ↔
      (host.hook hook l v).perform.Yields host (w₁.note (.hookRun hook l v)) x w₂ := by
  obtain ⟨w₁, hsample, hhook⟩ := h
  refine ⟨w₁, fun x w₂ => ?_⟩
  rw [Inbetween.yields_evaluateIn]
  constructor
  · rintro ⟨s, w₁', hs, hrest⟩
    obtain ⟨rfl, rfl⟩ := hs.unique hsample
    simpa only [Host.Concludes, hhook] using hrest
  · intro hrun
    refine ⟨.ended v, w₁, hsample, ?_⟩
    simpa only [Host.Concludes, hhook] using hrun

theorem Host.RunsHook.curve {a : AnimationId} {l : LinkId} {t : α}
    (stands : (w.scene.animation a).strategy = .bezier b time mode)
    (read : (ratio clock time).Yields host (w.note (.sampleBegan a (some l))) t w')
    (hook : V.Hook) (v : α) :
    host.RunsHook a l clock w hook v ↔
      mode.normalize t = .past ∧ v = b.p3 ∧ (w'.scene.animation a).hook = some hook := by
  simp only [Host.RunsHook, yields_sample_iff, stands, yields_curve]
  constructor
  · rintro ⟨_, ⟨w₁, ⟨t', ht', hv⟩, rfl⟩, hhook⟩
    obtain ⟨rfl, rfl⟩ := ht'.unique read
    obtain ⟨hpast, rfl⟩ := Phase.trace_eq_ended.mp hv.symm
    exact ⟨hpast, rfl, hhook⟩
  · rintro ⟨hpast, rfl, hhook⟩
    refine ⟨_, ⟨w', ⟨t, read, ?_⟩, rfl⟩, hhook⟩
    exact (Phase.trace_eq_ended.mpr ⟨hpast, rfl⟩).symm

theorem Host.RunsHook.chord {a : AnimationId} {l : LinkId} {t : α}
    (stands : (w.scene.animation a).strategy = .interpolate (b.chord time mode easing))
    (read : (ratio clock time).Yields host (w.lend a (some l)) t w') (hook : V.Hook) (v : α) :
    host.RunsHook a l clock w hook v ↔
      mode.normalize t = .past ∧ v = b.p3 ∧ (w'.scene.animation a).hook = some hook := by
  have hi : (w.scene.animation a).interpolation? = some (b.chord time mode easing) := by
    rw [Animation.interpolation?, stands, Strategy.interpolation?]
  -- Giving the configuration back leaves the hook alone.
  have hkept (w₁ : World α V M) (s : Sample α) :
      ((w₁.giveBack a (some l) s).scene.animation a).hook = (w₁.scene.animation a).hook := by
    rw [World.giveBack, World.note_scene, World.modifyAnimation_scene]
    apply Scene.hook_modifyAnimation
    intro anim
    rfl
  simp only [Host.RunsHook, yields_sample_interpolation hi, yields_chord]
  constructor
  · rintro ⟨_, ⟨w₁, ⟨t', ht', hv⟩, rfl⟩, hhook⟩
    obtain ⟨rfl, rfl⟩ := ht'.unique read
    obtain ⟨hpast, rfl⟩ := Phase.blend_eq_ended.mp hv.symm
    exact ⟨hpast, rfl, (hkept _ _).symm.trans hhook⟩
  · rintro ⟨hpast, rfl, hhook⟩
    refine ⟨_, ⟨w', ⟨t, read, ?_⟩, rfl⟩, (hkept _ _).trans hhook⟩
    exact (Phase.blend_eq_ended.mpr ⟨hpast, rfl⟩).symm

end Samples

/-! ## Evenly spaced control points -/

/-- It is as far from each control point to the next. -/
def Bezier.EvenlySpaced [Sub α] (b : Bezier α) : Prop :=
  b.p1 - b.p0 = b.p2 - b.p1 ∧ b.p2 - b.p1 = b.p3 - b.p2

section Exact

variable {K : Type} [Field K] [LinearOrder K] [IsStrictOrderedRing K] [FloorRing K] [Elementary K]

/-- The curve through evenly spaced points is a straight line, run through at an even pace. -/
theorem Bezier.EvenlySpaced.point_eq {b : Bezier K} (h : b.EvenlySpaced) (t : K) :
    b.point t = Curve.lerp b.p0 b.p3 t := by
  obtain ⟨hfirst, hlast⟩ := h
  have hone : (1.0 : K) = 1 := Scalar.exact_one
  have hthree : (3.0 : K) = 3 := by norm_num
  show (1.0 - t) * (1.0 - t) * (1.0 - t) * b.p0 + 3.0 * (1.0 - t) * (1.0 - t) * t * b.p1 +
    3.0 * (1.0 - t) * t * t * b.p2 + t * t * t * b.p3 = b.p0 + (b.p3 - b.p0) * t
  rw [hone, hthree]
  linear_combination ((1 - t) * t * (2 - t)) * hfirst + ((1 - t) * t * (1 + t)) * hlast

theorem Bezier.EvenlySpaced.trace_eq {b : Bezier K} (h : b.EvenlySpaced) (phase : Phase K) :
    phase.trace b = phase.blend .linear b.p0 b.p3 := by
  cases phase with
  | before => rfl
  | past => rfl
  | along t => exact congrArg Sample.value (h.point_eq t)

end Exact

/-! ## Curves and chords -/

/-- A curve and its chord that share their time and their mode come to a sample whenever the time
ratio is read, and leave the world as this read does. The samples are of one kind. Before a window
that holds its ends both are the first control point, and past it both are over with the last one.
So if the same ratio is read for two animations, and the same hook is installed in both by then, the
same hooks run, and each evaluation goes on as its hook does. If the control points are evenly
spaced and the chord is linear, the samples are the same everywhere. -/
theorem curves_end_with_chords :
    (∀ {α : Type} [Scalar α] {V : Vocabulary} {M : Type} (host : Host α V M) (b : Bezier α)
      (time : TimeSource α V) (mode : Extend) (easing : Easing) (clock : Clock α)
      (a : AnimationId) (w w' : World α V M),
      ((∃ s, (strategy host a clock (.bezier b time mode)).Yields host w s w') ↔
        ∃ t, (ratio clock time).Yields host w t w') ∧
      ((∃ s, (interpolation clock (b.chord time mode easing)).Yields host w s w') ↔
        ∃ t, (ratio clock time).Yields host w t w') ∧
      ∀ t s s', (ratio clock time).Yields host w t w' →
        (strategy host a clock (.bezier b time mode)).Yields host w s w' →
        (interpolation clock (b.chord time mode easing)).Yields host w s' w' →
        s.isEnded = s'.isEnded ∧
        (mode = .constant → t < 0.0 → s = .value b.p0 ∧ s' = .value b.p0) ∧
        (mode = .constant → ¬ t < 0.0 → t > 1.0 → s = .ended b.p3 ∧ s' = .ended b.p3)) ∧
    (∀ {α : Type} [Scalar α] {V : Vocabulary} {M : Type} (host : Host α V M) (b : Bezier α)
      (time : TimeSource α V) (mode : Extend) (easing : Easing) (clock : Clock α)
      (a a' : AnimationId) (l l' : LinkId) (w w' w₁ w₁' : World α V M) (t : α),
      (w.scene.animation a).strategy = .bezier b time mode →
      (w'.scene.animation a').strategy = .interpolate (b.chord time mode easing) →
      (ratio clock time).Yields host (w.note (.sampleBegan a (some l))) t w₁ →
      (ratio clock time).Yields host (w'.lend a' (some l')) t w₁' →
      (w₁.scene.animation a).hook = (w₁'.scene.animation a').hook →
      ∀ hook v,
        (host.RunsHook a l clock w hook v ↔ host.RunsHook a' l' clock w' hook v) ∧
        (host.RunsHook a l clock w hook v ↔ mode = .constant ∧ ¬ t < 0.0 ∧ t > 1.0 ∧ v = b.p3 ∧
          (w₁.scene.animation a).hook = some hook)) ∧
    (∀ {α : Type} [Scalar α] {V : Vocabulary} {M : Type} (host : Host α V M) (a : AnimationId)
      (l : LinkId) (clock : Clock α) (w : World α V M) (hook : V.Hook) (v : α),
      host.RunsHook a l clock w hook v →
      ∃ w₁ : World α V M, ∀ x w₂, (evaluateIn host a l clock).Yields host w x w₂ ↔
        (host.hook hook l v).perform.Yields host (w₁.note (.hookRun hook l v)) x w₂) ∧
    ∀ {K : Type} [Field K] [LinearOrder K] [IsStrictOrderedRing K] [FloorRing K] [Elementary K]
      {V : Vocabulary} {M : Type} (host : Host K V M) (b : Bezier K), b.EvenlySpaced →
      ∀ (time : TimeSource K V) (mode : Extend) (clock : Clock K) (a : AnimationId)
        (w w' : World K V M) (s : Sample K),
        (strategy host a clock (.bezier b time mode)).Yields host w s w' ↔
          (interpolation clock (b.chord time mode .linear)).Yields host w s w' := by
  refine ⟨?_, ?_, ?_, ?_⟩
  · intro α _ V M host b time mode easing clock a w w'
    refine ⟨?_, ?_, ?_⟩
    · simp only [yields_curve]
      constructor
      · rintro ⟨s, t, ht, -⟩
        exact ⟨t, ht⟩
      · rintro ⟨t, ht⟩
        exact ⟨_, t, ht, rfl⟩
    · simp only [yields_chord]
      constructor
      · rintro ⟨s, t, ht, -⟩
        exact ⟨t, ht⟩
      · rintro ⟨t, ht⟩
        exact ⟨_, t, ht, rfl⟩
    · intro t s s' ht hs hs'
      obtain ⟨_, hcurve, rfl⟩ := yields_curve.mp hs
      obtain ⟨_, hchord, rfl⟩ := yields_chord.mp hs'
      obtain ⟨rfl, -⟩ := ht.unique hcurve
      obtain ⟨rfl, -⟩ := ht.unique hchord
      refine ⟨((mode.normalize t).isEnded_blend easing b).symm, ?_, ?_⟩
      · rintro rfl hbefore
        rw [Extend.normalize_constant_of_lt hbefore]
        exact ⟨rfl, rfl⟩
      · rintro rfl hbegun hpast
        rw [Extend.normalize_constant_of_gt hbegun hpast]
        exact ⟨rfl, rfl⟩
  · intro α _ V M host b time mode easing clock a a' l l' w w' w₁ w₁' t stands stands' read read'
      hooks hook v
    have hcurve := Host.RunsHook.curve stands read hook v
    have hchord := Host.RunsHook.chord stands' read' hook v
    rw [← hooks] at hchord
    refine ⟨hcurve.trans hchord.symm, hcurve.trans ?_⟩
    rw [Extend.normalize_eq_past, and_assoc, and_assoc]
  · intro α _ V M host a l clock w hook v h
    exact h.yields_evaluateIn
  · intro K _ _ _ _ _ V M host b h time mode clock a w w' s
    rw [yields_curve, yields_chord]
    simp only [h.trace_eq]

namespace Ramp

/-! A curve through evenly spaced points and a chord of it that eases, with a hook on each. -/

def vocabulary : Vocabulary := ⟨Empty, Unit, Empty⟩

def host : Host ℚ vocabulary Unit where
  source := Empty.elim
  hook _ _ v := return v
  strategy := Empty.elim

def points : Bezier ℚ := ⟨1, 3, 5, 7⟩

def time : TimeSource ℚ vocabulary := .pace ⟨0, 1⟩

def world : World ℚ vocabulary Unit where
  scene :=
    { animations :=
        #[{ strategy := .bezier points time .constant, hook := some () },
          { strategy := .interpolate (points.chord time .constant .cosine), hook := some () }]
      links := #[{ target := 0 }, { target := 1 }] }
  memory := ()

theorem yields_ratio (s : ℚ) (w : World ℚ vocabulary Unit) :
    (ratio ⟨s, 0⟩ time).Yields host w s w := by
  refine yields_done.mpr ⟨?_, rfl⟩
  show s = (s - 0) * 1
  rw [sub_zero, mul_one]

/-- At twice the time both are over and run their hooks. Beyond its ends the curve goes on as the
straight line does. -/
theorem over_together :
    (host.RunsHook 0 0 ⟨2, 0⟩ world () 7 ∧ host.RunsHook 1 1 ⟨2, 0⟩ world () 7) ∧
    (∃ w, (evaluateIn host 1 1 ⟨2, 0⟩).Yields host world 7 w) ∧
    (∃ s s', (strategy host 0 ⟨-1, 0⟩ (.bezier points time .constant)).Yields host world s world ∧
      (interpolation ⟨-1, 0⟩ (points.chord time .constant .cosine)).Yields host world s' world ∧
      s = .value 1 ∧ s' = .value 1) ∧
    (interpolation ⟨2, 0⟩ (points.chord time .extrapolate .linear)).Yields host world (.value 13)
      world := by
  obtain ⟨hsamples, hhooks, hruns, hexact⟩ := curves_end_with_chords
  have hsame := hhooks host points time .constant .cosine ⟨2, 0⟩ 0 1 0 1 world world _ _ 2 rfl rfl
    (yields_ratio 2 _) (yields_ratio 2 _) rfl () 7
  have hover : host.RunsHook 0 0 ⟨2, 0⟩ world () 7 :=
    hsame.2.mpr ⟨rfl, by decide +kernel, by decide +kernel, rfl, rfl⟩
  refine ⟨⟨hover, hsame.1.mp hover⟩, ?_, ?_, ?_⟩
  · obtain ⟨w₁, hrun⟩ := hruns host 1 1 ⟨2, 0⟩ world () 7 (hsame.1.mp hover)
    exact ⟨_, (hrun 7 _).mpr (yields_done.mpr ⟨rfl, rfl⟩)⟩
  · obtain ⟨hcurve, hchord, hsame⟩ :=
      hsamples host points time .constant .cosine ⟨-1, 0⟩ 0 world world
    obtain ⟨s, hs⟩ := hcurve.mpr ⟨-1, yields_ratio _ _⟩
    obtain ⟨s', hs'⟩ := hchord.mpr ⟨-1, yields_ratio _ _⟩
    obtain ⟨-, hbefore, -⟩ := hsame (-1) s s' (yields_ratio _ _) hs hs'
    obtain ⟨h, h'⟩ := hbefore rfl (by decide +kernel)
    exact ⟨s, s', hs, hs', h, h'⟩
  · apply (hexact host points ⟨by decide +kernel, by decide +kernel⟩ time .extrapolate ⟨2, 0⟩ 0
      world world (.value 13)).mp
    exact yields_curve.mpr ⟨2, yields_ratio _ _, by decide +kernel⟩

end Ramp

end Inbetween
