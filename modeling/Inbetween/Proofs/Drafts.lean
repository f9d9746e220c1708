import Inbetween.Tween.Plan
import Mathlib.Data.List.Forall2

/-!
# Drafts of plans

When drafting a plan succeeds, what the plan is then, and which notes are taken on the way. The
segments of a chain are drafted as if each stood on its own, once the values that it takes over from
the segment before it have been filled in.
-/

namespace Inbetween

variable {α : Type}

theorem Draft.outcome_map_eq_ok {β γ : Type} {d : Draft α β} {f : β → γ} {c : γ} :
    (d.map f).outcome = .ok c ↔ ∃ b, d.outcome = .ok b ∧ f b = c := by
  cases h : d.outcome <;> simp [Draft.map, Except.map, h]

@[simp] theorem Draft.notes_map {β γ : Type} (d : Draft α β) (f : β → γ) :
    (d.map f).notes = d.notes := rfl

variable [Scalar α]

/-! ## Tweens -/

/-- A description has a plan if both values are there and its levels can be settled. -/
theorem Spec.plan_eq_ok {s : Spec α} {cfg : Config} {clock : Clock α} {start finish : Option α}
    {p : Plan α} :
    (s.plan cfg clock start finish).outcome = .ok p ↔
      ∃ a b drive, (s.settings.start <|> start) = some a ∧
        (s.settings.finish <|> finish) = some b ∧
        (s.timing.drive cfg clock s.settings).outcome = .ok drive ∧
        p = ⟨s.settings.level cfg a b, drive⟩ := by
  rw [Spec.plan]
  cases (s.settings.start <|> start) with
  | none => simp
  | some a =>
      cases (s.settings.finish <|> finish) with
      | none => simp
      | some b =>
          simp only [Draft.outcome_map_eq_ok, Option.some.injEq, exists_and_left,
            exists_eq_left']
          exact exists_congr fun drive => and_congr_right fun _ => eq_comm

/-- The note of the window at the end of the row of levels, if its bounds can be told. -/
def Timing.windowNote? (clock : Clock α) : Settings α → Timing α → Option (Note α)
  | s, .clock =>
    (Window.bounds? s.opens s.closes s.lasts clock).map fun (o, c) => .windowResolved o c
  | _, .fixed _ => none
  | _, .tween inner timing => timing.windowNote? clock inner

/-- The notes that are taken of a description. Its window comes up once both values are there. -/
def Spec.windowNotes (s : Spec α) (clock : Clock α) : List (Note α) :=
  if s.settings.start.isSome && s.settings.finish.isSome then
    (s.timing.windowNote? clock s.settings).toList
  else []

theorem Timing.notes_drive (cfg : Config) (clock : Clock α) (s : Settings α) (timing : Timing α) :
    (timing.drive cfg clock s).notes = (timing.windowNote? clock s).toList := by
  induction timing generalizing s with
  | clock => rfl
  | fixed ratio => rfl
  | tween inner timing ih => exact ih inner

theorem Spec.notes_plan (s : Spec α) (cfg : Config) (clock : Clock α) :
    (s.plan cfg clock none none).notes = s.windowNotes clock := by
  rw [Spec.plan, Spec.windowNotes]
  cases s.settings.start <;> cases s.settings.finish <;>
    simp [Option.orElse_eq_orElse, Timing.notes_drive]

/-- When the window of a description closes, if it follows the clock. -/
def Spec.closesAt? (s : Spec α) (clock : Clock α) : Option α :=
  match s.timing with
  | .clock =>
    (Window.bounds? s.settings.opens s.settings.closes s.settings.lasts clock).map Prod.snd
  | _ => none

theorem Window.resolve_eq_ok {opens closes lasts : Option α} {clock : Clock α} {w : Window α} :
    Window.resolve opens closes lasts clock = .ok w ↔
      Window.bounds? opens closes lasts clock = some (w.opens, w.closes) ∧ w.opens < w.closes := by
  rw [Window.resolve]
  cases Window.bounds? opens closes lasts clock with
  | none => simp
  | some bounds =>
      obtain ⟨o, c⟩ := bounds
      simp only [Window.make]
      by_cases h : o < c
      · simp only [if_pos h, Except.ok.injEq, Option.some.injEq, Prod.mk.injEq]
        constructor
        · rintro rfl
          exact ⟨⟨rfl, rfl⟩, h⟩
        · rintro ⟨⟨rfl, rfl⟩, -⟩
          rfl
      · simp only [if_neg h, reduceCtorEq, Option.some.injEq, Prod.mk.injEq, false_iff]
        rintro ⟨⟨rfl, rfl⟩, hlt⟩
        exact h hlt

theorem Plan.closes_of_plan {s : Spec α} {cfg : Config} {clock : Clock α} {start finish : Option α}
    {p : Plan α} (h : (s.plan cfg clock start finish).outcome = .ok p) :
    p.closes = s.closesAt? clock := by
  obtain ⟨a, b, drive, -, -, hdrive, rfl⟩ := Spec.plan_eq_ok.mp h
  obtain ⟨settings, timing⟩ := s
  cases timing with
  | clock =>
      obtain ⟨w, hw, rfl⟩ := Draft.outcome_map_eq_ok.mp hdrive
      have hbounds := (Window.resolve_eq_ok.mp hw).1
      simp [Plan.closes, Spec.closesAt?, hbounds]
  | fixed ratio =>
      obtain rfl := Except.ok.inj hdrive
      rfl
  | tween inner timing =>
      obtain ⟨below, -, rfl⟩ := Draft.outcome_map_eq_ok.mp hdrive
      rfl

theorem Plan.finish_of_plan {s : Spec α} {cfg : Config} {clock : Clock α} {start : Option α}
    {p : Plan α} (h : (s.plan cfg clock start none).outcome = .ok p) :
    s.settings.finish = some p.level.finish := by
  obtain ⟨a, b, drive, -, hfinish, -, rfl⟩ := Spec.plan_eq_ok.mp h
  rw [Option.orElse_eq_orElse, Option.orElse_eq_or, Option.or_none] at hfinish
  exact hfinish

/-! ## Chains -/

/-- The description with its missing start and its missing opening filled in. -/
def Spec.filledIn (s : Spec α) (start opens : Option α) : Spec α :=
  { s with settings.start := s.settings.start <|> start
           settings.opens := s.settings.opens <|> opens }

/-- Every segment takes over the end value and the closing of the one before it. A segment that does
not follow the clock has no closing. -/
def ChainSpec.filledFrom (clock : Clock α) :
    (start opens : Option α) → ChainSpec α → ChainSpec α
  | _, _, [] => []
  | start, opens, segment :: rest =>
    let filled := segment.filledIn start opens
    filled :: filledFrom clock filled.settings.finish (filled.closesAt? clock) rest

/-- The first segment takes over the current value. -/
def ChainSpec.filled (c : ChainSpec α) (clock : Clock α) (current : Option α) : ChainSpec α :=
  c.filledFrom clock current none

/-- The notes that are taken when all segments from number `index` on are settled: of each one its
window, if it has one, and what it hands on. -/
def ChainSpec.settledNotes (clock : Clock α) : (index : Nat) → ChainSpec α → List (Note α)
  | _, [] => []
  | index, s :: rest =>
    s.windowNotes clock ++
      (s.settings.finish.map fun v => .handedOff index v (s.closesAt? clock)).toList ++
      settledNotes clock (index + 1) rest

theorem Spec.plan_opening (s : Spec α) (cfg : Config) (clock : Clock α) (start opens : Option α) :
    (s.opening opens).plan cfg clock start none =
      (s.filledIn start opens).plan cfg clock none none := by
  obtain ⟨settings, timing⟩ := s
  simp only [Spec.plan, Spec.opening, Spec.filledIn, Option.orElse_eq_orElse, Option.orElse_eq_or,
    Option.or_none]
  cases settings.start.or start with
  | none => rfl
  | some a =>
      cases settings.finish with
      | none => rfl
      | some b => cases timing <;> rfl

omit [Scalar α] in
theorem Spec.filledIn_filledIn (s : Spec α) {start start' opens opens' : Option α}
    (hstart : start' = start ∨ start' = none) (hopens : opens' = opens ∨ opens' = none) :
    (s.filledIn start opens).filledIn start' opens' = s.filledIn start opens := by
  rcases hstart with rfl | rfl <;> rcases hopens with rfl | rfl <;>
    simp [filledIn, Option.orElse_eq_orElse, Option.orElse_eq_or, Option.or_assoc]

namespace ChainSpec

variable {cfg : Config} {clock : Clock α}

/-- A segment that fails ends the drafting. -/
theorem plansFrom_cons_error {index : Nat} {start opens : Option α} {segment : Spec α}
    {e : Error α}
    (h : ((segment.filledIn start opens).plan cfg clock none none).outcome = .error e)
    (rest : ChainSpec α) :
    plansFrom cfg clock index start opens (segment :: rest) =
      ⟨(segment.filledIn start opens).windowNotes clock, .error e⟩ := by
  simp only [plansFrom, Spec.plan_opening, h, Spec.notes_plan]

/-- A segment that has a plan hands on what it says itself. -/
theorem plansFrom_cons_ok {index : Nat} {start opens : Option α} {segment : Spec α} {p : Plan α}
    (h : ((segment.filledIn start opens).plan cfg clock none none).outcome = .ok p)
    (rest : ChainSpec α) :
    plansFrom cfg clock index start opens (segment :: rest) =
      let filled := segment.filledIn start opens
      let tail := plansFrom cfg clock (index + 1) filled.settings.finish (filled.closesAt? clock) rest
      ⟨filled.windowNotes clock ++
          (filled.settings.finish.map fun v => .handedOff index v (filled.closesAt? clock)).toList ++
          tail.notes,
        tail.outcome.map (p :: ·)⟩ := by
  simp only [plansFrom, Spec.plan_opening, h, Spec.notes_plan, Plan.finish_of_plan h,
    Plan.closes_of_plan h]
  simp

/-- If every filled segment has a plan, the chain has these plans. -/
theorem plansFrom_eq_ok {c : ChainSpec α} {index : Nat} {start opens : Option α}
    {plans : List (Plan α)}
    (h : List.Forall₂ (fun s p => (s.plan cfg clock none none).outcome = .ok p)
      (c.filledFrom clock start opens) plans) :
    plansFrom cfg clock index start opens c =
      ⟨settledNotes clock index (c.filledFrom clock start opens), .ok plans⟩ := by
  induction c generalizing index start opens plans with
  | nil =>
      cases h
      rfl
  | cons segment rest ih =>
      cases h with
      | cons hsegment hrest =>
          rw [plansFrom_cons_ok hsegment]
          simp only [ih hrest]
          rfl

/-- The first filled segment without a plan is what the chain fails with, whatever comes after. -/
theorem plansFrom_eq_error {c : ChainSpec α} {index i : Nat} {start opens : Option α} {s : Spec α}
    {e : Error α}
    (earlier : ∀ x ∈ (c.filledFrom clock start opens).take i,
      ∃ p, (x.plan cfg clock none none).outcome = .ok p)
    (found : (c.filledFrom clock start opens)[i]? = some s)
    (fails : (s.plan cfg clock none none).outcome = .error e) (rest : ChainSpec α) :
    plansFrom cfg clock index start opens (c.take (i + 1) ++ rest) =
      ⟨settledNotes clock index ((c.filledFrom clock start opens).take i) ++ s.windowNotes clock,
        .error e⟩ := by
  induction c generalizing index i start opens with
  | nil => simp [filledFrom] at found
  | cons segment later ih =>
      cases i with
      | zero =>
          obtain rfl : segment.filledIn start opens = s := by simpa [filledFrom] using found
          rw [List.take_succ_cons, List.cons_append, plansFrom_cons_error fails]
          rfl
      | succ i =>
          simp only [filledFrom, List.take_succ_cons, List.mem_cons, forall_eq_or_imp,
            List.getElem?_cons_succ] at earlier found
          obtain ⟨⟨p, hp⟩, earlier⟩ := earlier
          rw [List.take_succ_cons, List.cons_append, plansFrom_cons_ok hp]
          simp only [ih earlier found]
          simp [filledFrom, settledNotes, Except.map]

theorem plansFrom_filledFrom {index : Nat} {start start' opens opens' : Option α}
    (c : ChainSpec α) (hstart : start' = start ∨ start' = none)
    (hopens : opens' = opens ∨ opens' = none) :
    plansFrom cfg clock index start' opens' (c.filledFrom clock start opens) =
      plansFrom cfg clock index start opens c := by
  induction c generalizing index start start' opens opens' with
  | nil => rfl
  | cons segment rest ih =>
      have hfilled := segment.filledIn_filledIn hstart hopens
      rw [filledFrom]
      cases h : ((segment.filledIn start opens).plan cfg clock none none).outcome with
      | error e =>
          rw [plansFrom_cons_error h, plansFrom_cons_error (hfilled ▸ h), hfilled]
      | ok p =>
          rw [plansFrom_cons_ok h, plansFrom_cons_ok (hfilled ▸ h), hfilled]
          simp only [ih (.inl rfl) (.inl rfl)]

end ChainSpec

end Inbetween
