import Inbetween.Proofs.Interpretation
import Inbetween.Proofs.Playback
import Inbetween.Proofs.Rationals
import Inbetween.Proofs.References

/-!
# Windows that run forward

Of the opening, the closing and the duration of a window each may be given or missing. What is
missing follows from what is given and from the clock, and a window is made only if it closes after
it opens. So whatever is built follows the clock through such windows alone, however deep in a
description or late in a chain they stand.
-/

namespace Inbetween

open Act

namespace Window

/-! ## Bounds -/

section Bounds

variable {α : Type} [Scalar α]

/-- The bounds that the opening, the closing and the duration make at a clock. -/
inductive BoundsFrom : (opens closes lasts : Option α) → Clock α → α → α → Prop
  | given (o c : α) (lasts : Option α) (clock : Clock α) :
      BoundsFrom (some o) (some c) lasts clock o c
  | counted (o d : α) (clock : Clock α) : BoundsFrom (some o) none (some d) clock o (o + d)
  | countedBack (c d : α) (clock : Clock α) : BoundsFrom none (some c) (some d) clock (c - d) c
  | fromNow (c : α) (clock : Clock α) : BoundsFrom none (some c) none clock clock.time c
  | countedFromNow (d : α) (clock : Clock α) :
      BoundsFrom none none (some d) clock clock.time (clock.time + d)

variable {opens closes lasts : Option α} {clock : Clock α} {o c : α}

theorem bounds?_eq_some :
    bounds? opens closes lasts clock = some (o, c) ↔
      BoundsFrom opens closes lasts clock o c := by
  constructor
  · intro h
    cases opens <;> cases closes <;> cases lasts <;> cases h <;> constructor
  · rintro (_ | _ | _ | _ | _) <;> rfl

theorem bounds?_eq_none :
    bounds? opens closes lasts clock = none ↔ closes = none ∧ lasts = none := by
  constructor
  · intro h
    cases closes <;> cases lasts <;> first | exact ⟨rfl, rfl⟩ | cases h
  · rintro ⟨rfl, rfl⟩
    rfl

theorem BoundsFrom.unique {o' c' : α} (h : BoundsFrom opens closes lasts clock o c)
    (h' : BoundsFrom opens closes lasts clock o' c') : (o', c') = (o, c) :=
  Option.some.inj ((bounds?_eq_some.mpr h').symm.trans (bounds?_eq_some.mpr h))

/-- Bounds that are given are taken as they are. -/
theorem BoundsFrom.keeps (h : BoundsFrom opens closes lasts clock o c) :
    (∀ x, opens = some x → o = x) ∧ ∀ x, closes = some x → c = x := by
  cases h <;> simp

/-- Anything but a closing or a duration may be missing. -/
theorem exists_boundsFrom (h : ¬ (closes = none ∧ lasts = none)) :
    ∃! bounds : α × α, BoundsFrom opens closes lasts clock bounds.1 bounds.2 := by
  obtain ⟨⟨o, c⟩, hbounds⟩ := Option.ne_none_iff_exists'.mp (mt bounds?_eq_none.mp h)
  have hfrom := bounds?_eq_some.mp hbounds
  exact ⟨(o, c), hfrom, fun _ h' => hfrom.unique h'⟩

/-! ## Resolving -/

theorem resolve_eq_missingEnd :
    resolve opens closes lasts clock = .error .missingEnd ↔ closes = none ∧ lasts = none := by
  have hnone := @bounds?_eq_none _ _ opens closes lasts clock
  rw [← hnone, resolve]
  cases bounds? opens closes lasts clock with
  | none => simp
  | some bounds =>
      simp only [make]
      split <;> simp

theorem resolve_eq_emptyWindow :
    resolve opens closes lasts clock = .error (.emptyWindow o c) ↔
      BoundsFrom opens closes lasts clock o c ∧ ¬ o < c := by
  rw [← bounds?_eq_some, resolve]
  cases bounds? opens closes lasts clock with
  | none => simp
  | some bounds =>
      obtain ⟨o', c'⟩ := bounds
      simp only [make, Option.some.injEq, Prod.mk.injEq]
      split
      case isTrue h =>
        simp only [reduceCtorEq, false_iff, not_and, not_not]
        rintro ⟨rfl, rfl⟩
        exact h
      case isFalse h =>
        simp only [Except.error.injEq, Error.emptyWindow.injEq, iff_self_and]
        rintro ⟨rfl, rfl⟩
        exact h

theorem resolve_eq_window {w : Window α} :
    resolve opens closes lasts clock = .ok w ↔
      BoundsFrom opens closes lasts clock w.opens w.closes ∧ w.opens < w.closes := by
  rw [resolve_eq_ok, bounds?_eq_some]

/-- The clock fills in for an opening that is neither given nor counted back. -/
theorem bounds?_clock (h : opens.isSome ∨ closes.isSome ∧ lasts.isSome) (clock' : Clock α) :
    bounds? opens closes lasts clock' = bounds? opens closes lasts clock := by
  cases opens <;> cases closes <;> cases lasts <;> first | rfl | simp at h

theorem bounds?_lasts (hopens : opens.isSome) (hcloses : closes.isSome) (lasts' : Option α) :
    bounds? opens closes lasts' clock = bounds? opens closes lasts clock := by
  obtain ⟨o, rfl⟩ := Option.isSome_iff_exists.mp hopens
  obtain ⟨c, rfl⟩ := Option.isSome_iff_exists.mp hcloses
  rfl

end Bounds

/-- Without rounding a window is as long as it was said to be. -/
theorem BoundsFrom.duration_eq {K : Type} [Field K] [CharZero K] [LinearOrder K] [FloorRing K]
    [Elementary K] {opens closes : Option K} {d : K} {clock : Clock K} {w : Window K}
    (h : BoundsFrom opens closes (some d) clock w.opens w.closes)
    (missing : opens = none ∨ closes = none) : w.duration = d := by
  rw [duration]
  generalize w.opens = o at h ⊢
  generalize w.closes = c at h ⊢
  cases h with
  | given => simp at missing
  | counted => exact add_sub_cancel_left o d
  | countedBack => exact sub_sub_cancel c d
  | countedFromNow => exact add_sub_cancel_left _ d

end Window

/-! ## Numbers that are compared -/

/-- What is not a number is not less than anything, and nothing is less than it. -/
theorem Binary64.isNaN_of_lt {x y : Float} (h : x < y) : x.isNaN = false ∧ y.isNaN = false := by
  have hcompare : (x.toModel.unpack.compare y.toModel.unpack == some .lt) = true :=
    decide_eq_true_iff.mp h
  show x.toModel.unpack.isNaN = false ∧ y.toModel.unpack.isNaN = false
  generalize x.toModel.unpack = u at hcompare ⊢
  generalize y.toModel.unpack = v at hcompare ⊢
  cases u <;> cases v <;> first | exact ⟨rfl, rfl⟩ | cases hcompare

/-! ## Windows of animations -/

section Following

variable {α : Type} {V : Vocabulary} {M : Type}

def TimeSource.pace? : TimeSource α V → Option (Pace α)
  | .pace p => some p
  | .slot _ => none

/-- How a strategy itself follows the clock. -/
def Strategy.pace? : Strategy α V → Option (Pace α)
  | .interpolate i => i.time.pace?
  | .bezier _ time _ => time.pace?
  | _ => none

namespace Scene

/-- The animation follows the clock at the pace, or something that it refers to does. -/
inductive KeepsPace (sc : Scene α V) (p : Pace α) : AnimationId → Prop
  | itself {a : AnimationId} : (sc.animation a).strategy.pace? = some p → sc.KeepsPace p a
  | slot {a : AnimationId} {part : Part} {l : LinkId} {here : Link α} :
      (sc.animation a).strategy.slotAt? part = some (.link l) → sc.links[l]? = some here →
      sc.KeepsPace p here.target → sc.KeepsPace p a
  | segment {a b : AnimationId} {position : Nat} :
      (sc.animation a).strategy.segmentAt? position = some b → sc.KeepsPace p b →
      sc.KeepsPace p a

end Scene

/-- The window at the end of a drive. -/
def Drive.window? : Drive α → Option (Window α)
  | .window w => some w
  | .fixed _ => none
  | .tween _ drive => drive.window?

variable [Scalar α]

theorem Timing.lt_of_drive {cfg : Config} {clock : Clock α} {timing : Timing α} {s : Settings α}
    {drive : Drive α} (h : (timing.drive cfg clock s).outcome = .ok drive) {win : Window α}
    (hwin : drive.window? = some win) : win.opens < win.closes := by
  induction timing generalizing s drive with
  | clock =>
      obtain ⟨w, hw, rfl⟩ := Draft.outcome_map_eq_ok.mp h
      obtain rfl : w = win := Option.some.inj hwin
      exact (Window.resolve_eq_window.mp hw).2
  | fixed ratio =>
      obtain rfl : Drive.fixed ratio = drive := Except.ok.inj h
      cases hwin
  | tween inner timing ih =>
      obtain ⟨below, hbelow, rfl⟩ := Draft.outcome_map_eq_ok.mp h
      exact ih hbelow hwin

theorem Spec.lt_of_plan {spec : Spec α} {cfg : Config} {clock : Clock α} {start finish : Option α}
    {plan : Plan α} (h : (spec.plan cfg clock start finish).outcome = .ok plan) {win : Window α}
    (hwin : plan.drive.window? = some win) : win.opens < win.closes := by
  obtain ⟨_, _, drive, -, -, hdrive, rfl⟩ := Spec.plan_eq_ok.mp h
  exact Timing.lt_of_drive hdrive hwin

namespace Scene

variable {sc : Scene α V} {p : Pace α} {a : AnimationId}

/-- A row of interpolations follows the clock at its end only. The induction goes along the way from
the animation to the pace. Constants and chains are no part of it, so each step goes inward through
the link of a level, which is the link that carries the drive. -/
theorem KeepsPace.window_of_carries (h : sc.KeepsPace p a) {level : Level α}
    {time : TimeSource α V} {bound : LinkId} {drive : Drive α}
    (stands : sc.Stands a (level.strategy time)) (carries : sc.Carries bound drive time) :
    ∃ win, drive.window? = some win ∧ p = win.pace := by
  induction h generalizing level time bound drive with
  | itself hpace =>
      rw [stands.1] at hpace
      cases carries with
      | window win => exact ⟨win, rfl, (Option.some.inj hpace).symm⟩
      | fixed => cases hpace
      | tween => cases hpace
  | @slot a part l here hslot hlink _ ih =>
      rw [stands.1] at hslot
      have htime : time = .slot (.link l) := by
        cases part with
        | time =>
            cases time with
            | pace => cases hslot
            | slot => exact congrArg _ (Option.some.inj hslot)
        | _ => cases hslot
      subst htime
      cases carries with
      | tween older found stands' inner =>
          obtain rfl := Option.some.inj (hlink.symm.trans found)
          obtain ⟨win, hwin, hp⟩ := ih stands' inner
          exact ⟨win, hwin, hp⟩
  | segment hsegment =>
      rw [stands.1] at hsegment
      cases hsegment

theorem KeepsPace.window_of_plays (h : sc.KeepsPace p a) {plan : Plan α} (plays : sc.Plays a plan) :
    ∃ win, plan.drive.window? = some win ∧ p = win.pace := by
  obtain ⟨time, stands, carries⟩ := plays
  exact h.window_of_carries stands carries

omit [Scalar α] in
/-- A chain follows the clock through its segments. -/
theorem KeepsPace.of_chain (h : sc.KeepsPace p a) {segments : List AnimationId}
    (stands : sc.Stands a (.chain segments)) :
    ∃ i, ∃ hi : i < segments.length, sc.KeepsPace p (segments.get ⟨i, hi⟩) := by
  cases h with
  | itself hpace =>
      rw [stands.1] at hpace
      cases hpace
  | slot hslot =>
      rw [stands.1] at hslot
      cases hslot
  | segment hsegment hb =>
      rw [stands.1] at hsegment
      obtain ⟨hi, rfl⟩ := List.getElem?_eq_some_iff.mp hsegment
      exact ⟨_, hi, hb⟩

end Scene

variable {host : Host α V M} {cfg : Config} {clock : Clock α} {current : Option α}
  {w w' : World α V M} {a : AnimationId} {p : Pace α}

theorem forward_of_build {spec : Spec α}
    (built : host.Answers (.build spec cfg clock current) w (.ok a) w')
    (h : w'.scene.KeepsPace p a) : ∃ win : Window α, p = win.pace ∧ win.opens < win.closes := by
  obtain ⟨plan, hplan, plays⟩ := plays_of_build built
  obtain ⟨win, hwin, rfl⟩ := h.window_of_plays plays
  exact ⟨win, rfl, Spec.lt_of_plan hplan hwin⟩

theorem forward_of_buildChain {c : ChainSpec α}
    (built : host.Answers (.buildChain c cfg clock current) w (.ok a) w')
    (h : w'.scene.KeepsPace p a) : ∃ win : Window α, p = win.pace ∧ win.opens < win.closes := by
  obtain ⟨-, plans, hplans, rfl, hscene⟩ := plans_of_buildChain built
  obtain ⟨stands, plays⟩ := Scene.plays_installChain plans w.scene
  rw [← hscene] at stands plays
  obtain ⟨i, hi, hkeeps⟩ := h.of_chain stands
  have hi' : i < plans.length := plays.length_eq ▸ hi
  obtain ⟨win, hwin, rfl⟩ := hkeeps.window_of_plays (plays.get hi hi')
  exact ⟨win, rfl, Spec.lt_of_plan (hplans.get (hplans.length_eq ▸ hi') hi') hwin⟩

end Following

open Window in
/-- **Clocks are followed through windows that run forward.** Of eight ways to give the opening, the
closing and the duration, those without the last two are missing an end. Each of the others makes
one pair of bounds, in which what was given is kept. They are the window if they are in order, and
are reported if they are not, as they never are unless both are numbers. The clock makes no
difference to an opening that is given or counted back, nor the duration to bounds that are given,
and without rounding a window that is counted from its duration lasts as long. Whatever is built out
of descriptions, at whatever depth and place, keeps the pace of such a window wherever it follows
the clock. -/
theorem clock_windows_run_forward :
    (∀ {α : Type} [Scalar α] (opens closes lasts : Option α) (clock : Clock α),
      (resolve opens closes lasts clock = .error .missingEnd ↔ closes = none ∧ lasts = none) ∧
      (¬ (closes = none ∧ lasts = none) →
        ∃! bounds : α × α, BoundsFrom opens closes lasts clock bounds.1 bounds.2) ∧
      (∀ o c, BoundsFrom opens closes lasts clock o c →
        (∀ x, opens = some x → o = x) ∧ ∀ x, closes = some x → c = x) ∧
      (∀ w, resolve opens closes lasts clock = .ok w ↔
        BoundsFrom opens closes lasts clock w.opens w.closes ∧ w.opens < w.closes) ∧
      (∀ o c, resolve opens closes lasts clock = .error (.emptyWindow o c) ↔
        BoundsFrom opens closes lasts clock o c ∧ ¬ o < c) ∧
      (opens.isSome ∨ closes.isSome ∧ lasts.isSome → ∀ clock',
        resolve opens closes lasts clock' = resolve opens closes lasts clock) ∧
      (opens.isSome → closes.isSome → ∀ lasts',
        resolve opens closes lasts' clock = resolve opens closes lasts clock)) ∧
    (∀ o c : Float, o < c → o.isNaN = false ∧ c.isNaN = false) ∧
    (∀ {K : Type} [Field K] [CharZero K] [LinearOrder K] [FloorRing K] [Elementary K]
      (opens closes : Option K) (d : K) (clock : Clock K) (w : Window K),
      opens = none ∨ closes = none → resolve opens closes (some d) clock = .ok w →
      w.duration = d) ∧
    ∀ {α : Type} [Scalar α] {V : Vocabulary} {M : Type} (host : Host α V M) (cfg : Config)
      (clock : Clock α) (current : Option α) (w w' : World α V M) (a : AnimationId),
      (∃ spec, host.Answers (.build spec cfg clock current) w (.ok a) w') ∨
        (∃ c, host.Answers (.buildChain c cfg clock current) w (.ok a) w') →
      ∀ p, w'.scene.KeepsPace p a → ∃ win : Window α, p = win.pace ∧ win.opens < win.closes := by
  refine ⟨?_, fun _ _ => Binary64.isNaN_of_lt, ?_, ?_⟩
  · intro α _ opens closes lasts clock
    refine ⟨resolve_eq_missingEnd, exists_boundsFrom, fun _ _ h => h.keeps,
      fun _ => resolve_eq_window, fun _ _ => resolve_eq_emptyWindow, ?_, ?_⟩
    · intro h clock'
      rw [resolve, resolve, bounds?_clock h]
    · intro hopens hcloses lasts'
      rw [resolve, resolve, bounds?_lasts hopens hcloses]
  · intro K _ _ _ _ _ opens closes d clock w missing h
    exact (resolve_eq_window.mp h).1.duration_eq missing
  · intro α _ V M host cfg clock current w w' a built p h
    rcases built with ⟨spec, built⟩ | ⟨c, built⟩
    · exact forward_of_build built h
    · exact forward_of_buildChain built h

namespace Handover

/-! A chain whose second segment gives a closing and a duration. Alone it would open long before the
clock, but it is handed the closing of the first segment and opens there. -/

def vocabulary : Vocabulary := ⟨Empty, Empty, Empty⟩

def host : Host Float vocabulary Unit := ⟨Empty.elim, Empty.elim, Empty.elim⟩

def chain : ChainSpec Float :=
  [⟨{ start := some 0.0, finish := some 1.0 }, .tween { lasts := some 2.0 } .clock⟩,
    ⟨{ finish := some 2.0, lasts := some 2.0 }, .clock⟩,
    ⟨{ finish := some 5.0, closes := some 4.0, lasts := some 100.0 }, .clock⟩]

/-- The third segment runs from 3 to 4. Alone it would last as long as it says, and an opening that
is not a number would leave it without a window. -/
theorem opens_at_handover :
    (∃ a w', host.Answers (.buildChain chain {} (.startingAt 1.0) none) { memory := () } (.ok a) w' ∧
      w'.scene.KeepsPace ⟨3.0, 1.0⟩ a ∧
      ∃ win : Window Float, ⟨3.0, 1.0⟩ = win.pace ∧ win.opens < win.closes) ∧
    (∃ win : Window ℚ, Window.resolve none (some 4) (some 100) (.startingAt 1) = .ok win ∧
      win.duration = 100) ∧
    Window.resolve (some (0.0 / 0.0)) (some 4.0) none (.startingAt (1.0 : Float)) =
      .error (.emptyWindow (0.0 / 0.0) 4.0) := by
  obtain ⟨resolves, numbers, lasts, built⟩ := clock_windows_run_forward
  refine ⟨?_, ?_, ?_⟩
  · have h : ∃ a w', host.Answers (.buildChain chain {} (.startingAt 1.0) none) { memory := () }
        (.ok a) w' ∧ w'.scene.KeepsPace ⟨3.0, 1.0⟩ a := by
      refine ⟨_, _, ⟨1, rfl⟩, ?_⟩
      refine .segment (b := 3) (?_ : Strategy.segmentAt? _ 2 = _) (.itself ?_)
      · rfl
      · show some (Window.pace ⟨1.0 + 2.0, 4.0⟩) = some (⟨3.0, 1.0⟩ : Pace Float)
        decide +kernel
    obtain ⟨a, w', hanswers, hkeeps⟩ := h
    exact ⟨a, w', hanswers, hkeeps, built host _ _ _ _ _ _ (.inr ⟨chain, hanswers⟩) _ hkeeps⟩
  · have alone : Window.resolve none (some 4) (some 100) (.startingAt (1 : ℚ)) =
        .ok ⟨-96, 4⟩ := by
      decide +kernel
    exact ⟨_, alone, lasts _ _ _ _ _ (.inl rfl) alone⟩
  · obtain ⟨-, -, -, -, empty, -, -⟩ :=
      resolves (some (0.0 / 0.0 : Float)) (some 4.0) none (.startingAt 1.0)
    refine (empty _ _).mpr ⟨.given .., fun h => ?_⟩
    exact absurd (numbers _ _ h).1 (by decide +kernel)

end Handover

end Inbetween
