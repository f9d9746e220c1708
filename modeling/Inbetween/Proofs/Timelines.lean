import Mathlib.Algebra.Order.Field.Basic
import Mathlib.Data.List.Chain
import Mathlib.Order.Monotone.Defs
import Inbetween.Proofs.Exact
import Inbetween.Proofs.Drafts
import Inbetween.Sample

/-!
# Timelines

A chain whose segments follow the clock and hold their ends is a timeline: a row of stretches of
time, each with the values that it runs between. At every time one stretch is active, the first one
that has not closed, or the last one when all have. Stretches may overlap, leave gaps, or stand in
any order. If no later segment says where and when it starts, they tile the time, and the value
goes on from each to the next without a jump.

Over numbers that do not round, the active stretch only ever moves forward.
-/

namespace Inbetween

variable {α : Type}

/-! ## Stretches -/

/-- A settled segment that follows the clock and holds its ends. -/
structure Stretch (α : Type) [Scalar α] where
  start : α
  finish : α
  opens : α
  closes : α
  easing : Easing
  rises : opens < closes
  deriving DecidableEq

namespace Stretch

variable [Scalar α]

/-- The value until the end: the start before the stretch opens, then the eased blend. -/
def valueAt (x : Stretch α) (time : α) : α :=
  if time < x.opens then x.start
  else x.start + (x.finish - x.start) *
    x.easing.apply ((time - x.opens) / (x.closes - x.opens))

def sampleAt (x : Stretch α) (time : α) : Sample α :=
  if x.closes < time then .ended x.finish else .value (x.valueAt time)

/-- The second stretch goes on where and when the first one stops. -/
def Adjoins (x y : Stretch α) : Prop := y.opens = x.closes ∧ y.start = x.finish

end Stretch

/-- The stretch of a description, if nothing is missing. -/
def Spec.stretch? [Scalar α] (s : Spec α) (cfg : Config) (clock : Clock α) :
    Option (Stretch α) :=
  match s.settings.start, s.settings.finish,
    Window.bounds? s.settings.opens s.settings.closes s.settings.lasts clock with
  | some start, some finish, some (opens, closes) =>
    if rises : opens < closes then
      some ⟨start, finish, opens, closes, s.settings.easing.getD cfg.easing, rises⟩
    else none
  | _, _, _ => none

/-! ## Rows of stretches -/

abbrev Timeline (α : Type) [Scalar α] := List (Stretch α)

namespace Timeline

section Definitions

variable [Scalar α]

/-- The place of the first stretch that closes no earlier than the given time, or else of the last
one. -/
def active (ts : Timeline α) (time : α) : Nat :=
  min (ts.findIdx fun x => time ≤ x.closes) (ts.length - 1)

/-- The sample of the active stretch. -/
def sampleAt (ts : Timeline α) (time : α) : Sample α :=
  match ts[ts.active time]? with
  | some x => x.sampleAt time
  | none => .value 0.0

/-- The stretches tile the time from the opening of the first one on. -/
structure Tiles (ts : Timeline α) : Prop where
  adjoining : ts.IsChain Stretch.Adjoins
  rising : ts.Pairwise fun x y => x.closes < y.closes
  /-- A stretch behind the first one is active only after it has opened. -/
  opened : ∀ time i x, ts.active time = i + 1 → ts[i + 1]? = some x → x.opens < time
  /-- Curves that run from 0 to 1 meet where one stretch hands over to the next. -/
  meeting : ts.IsChain fun x y =>
    x.easing.apply (1.0 : α) = 1.0 → y.easing.apply (0.0 : α) = 0.0 →
      x.valueAt x.closes = y.valueAt x.closes

theorem active_singleton (x : Stretch α) (time : α) : active [x] time = 0 := by
  simp [active]

theorem active_cons_cons (x y : Stretch α) (rest : Timeline α) (time : α) :
    active (x :: y :: rest) time =
      if time ≤ x.closes then 0 else active (y :: rest) time + 1 := by
  simp only [active, List.findIdx_cons, List.length_cons]
  by_cases h : time ≤ x.closes
  · simp [h]
  · simp only [h, decide_false, cond_false, if_false]
    omega

theorem sampleAt_singleton (x : Stretch α) (time : α) : sampleAt [x] time = x.sampleAt time := by
  simp [sampleAt, active_singleton]

end Definitions

/-! ## Moving through a timeline -/

section Exact

variable {K : Type} [Field K] [LinearOrder K] [FloorRing K] [Elementary K]

theorem sampleAt_cons_cons (x y : Stretch K) (rest : Timeline K) (time : K) :
    sampleAt (x :: y :: rest) time =
      if time ≤ x.closes then .value (x.valueAt time) else sampleAt (y :: rest) time := by
  rw [sampleAt, active_cons_cons]
  by_cases h : time ≤ x.closes
  · rw [if_pos h, if_pos h]
    show x.sampleAt time = _
    rw [Stretch.sampleAt, if_neg (not_lt.mpr h)]
  · rw [if_neg h, if_neg h]
    rfl

theorem monotone_active (ts : Timeline K) : Monotone ts.active := by
  intro time time' hle
  induction ts with
  | nil => exact Nat.le_refl _
  | cons x rest ih =>
      cases rest with
      | nil => simp [active_singleton]
      | cons y rest =>
          rw [active_cons_cons, active_cons_cons]
          by_cases h : time ≤ x.closes
          · rw [if_pos h]
            exact Nat.zero_le _
          · rw [if_neg h, if_neg fun h' => h (hle.trans h')]
            exact Nat.succ_le_succ ih

/-- A timeline is over when all of its stretches are, and then it reports the end of the last. -/
theorem sampleAt_eq_ended {ts : Timeline K} {last : Stretch K} (hlast : ts.getLast? = some last)
    (time v : K) :
    ts.sampleAt time = .ended v ↔ v = last.finish ∧ ∀ x ∈ ts, x.closes < time := by
  induction ts with
  | nil => cases hlast
  | cons x rest ih =>
      cases rest with
      | nil =>
          obtain rfl : x = last := by simpa using hlast
          rw [sampleAt_singleton, Stretch.sampleAt]
          by_cases h : x.closes < time <;> simp [h, eq_comm]
      | cons y rest =>
          rw [List.getLast?_cons_cons] at hlast
          rw [sampleAt_cons_cons, List.forall_mem_cons]
          by_cases h : time ≤ x.closes
          · simp [h, not_lt.mpr h]
          · simp [h, not_le.mp h, ih hlast]

/-- The stretches before the active one have closed. -/
theorem closes_lt_of_lt_active {ts : Timeline K} {time : K} {i : Nat} {x : Stretch K}
    (hi : i < ts.active time) (hx : ts[i]? = some x) : x.closes < time := by
  obtain ⟨hlt, rfl⟩ := List.getElem?_eq_some_iff.mp hx
  have hnot := List.not_of_lt_findIdx (Nat.lt_of_lt_of_le hi (Nat.min_le_left _ _))
  exact not_le.mp (by simpa using hnot)

/-! ## Tiles -/

theorem valueAt_closes {x : Stretch K} (h : x.easing.apply (1.0 : K) = 1.0) :
    x.valueAt x.closes = x.finish := by
  have hspan : x.closes - x.opens ≠ 0 := sub_ne_zero.mpr x.rises.ne'
  rw [Stretch.valueAt, if_neg x.rises.not_gt, div_self hspan, ← Scalar.exact_one, h,
    Scalar.exact_one, mul_one, add_sub_cancel]

theorem valueAt_opens {x : Stretch K} (h : x.easing.apply (0.0 : K) = 0.0) :
    x.valueAt x.opens = x.start := by
  rw [Stretch.valueAt, if_neg (lt_irrefl _), sub_self, zero_div, ← Scalar.exact_zero, h,
    Scalar.exact_zero, mul_zero, add_zero]

/-- Stretches of which each adjoins the next one tile the time. -/
theorem tiles_of_adjoining {ts : Timeline K} (h : ts.IsChain Stretch.Adjoins) : ts.Tiles where
  adjoining := h
  rising := by
    refine List.isChain_iff_pairwise.mp (h.imp ?_)
    rintro x y ⟨hopens, -⟩
    exact hopens ▸ y.rises
  opened := by
    intro time i y hactive hy
    obtain ⟨hlt, rfl⟩ := List.getElem?_eq_some_iff.mp hy
    rw [(h.getElem i hlt).1]
    exact closes_lt_of_lt_active (by omega) (List.getElem?_eq_getElem _)
  meeting := by
    refine h.imp ?_
    rintro x y ⟨hopens, hstart⟩ hx hy
    rw [valueAt_closes hx, ← hopens, valueAt_opens hy, hstart]

end Exact

end Timeline

/-! ## Timelines of chains -/

section Filling

variable [Scalar α] {cfg : Config} {clock : Clock α}

theorem Spec.stretch?_eq_some {s : Spec α} {x : Stretch α} :
    s.stretch? cfg clock = some x ↔
      s.settings.start = some x.start ∧ s.settings.finish = some x.finish ∧
        Window.bounds? s.settings.opens s.settings.closes s.settings.lasts clock =
          some (x.opens, x.closes) ∧ s.settings.easing.getD cfg.easing = x.easing := by
  obtain ⟨start, finish, opens, closes, easing, rises⟩ := x
  rw [Spec.stretch?]
  cases s.settings.start with
  | none => simp
  | some start' =>
      cases s.settings.finish with
      | none => simp
      | some finish' =>
          cases Window.bounds? s.settings.opens s.settings.closes s.settings.lasts clock with
          | none => simp
          | some bounds =>
              obtain ⟨opens', closes'⟩ := bounds
              simp only [Option.some.injEq, Prod.mk.injEq]
              constructor
              · intro h
                split at h <;> simp_all
              · rintro ⟨rfl, rfl, ⟨rfl, rfl⟩, rfl⟩
                rw [dif_pos rises]

theorem Window.opens_of_bounds? {o o' c : α} {closes lasts : Option α}
    (h : Window.bounds? (some o) closes lasts clock = some (o', c)) : o' = o := by
  cases closes <;> cases lasts <;> cases h <;> rfl

theorem Spec.closesAt?_of_stretch? {s : Spec α} {x : Stretch α} (clocked : s.timing = .clock)
    (h : s.stretch? cfg clock = some x) : s.closesAt? clock = some x.closes := by
  obtain ⟨-, -, bounds, -⟩ := Spec.stretch?_eq_some.mp h
  simp [Spec.closesAt?, clocked, bounds]

/-- Segments that leave their starts and openings to the chain adjoin each other. -/
theorem ChainSpec.isChain_of_filledFrom {c : ChainSpec α} {x : Stretch α} {ts : Timeline α}
    (clocked : ∀ s ∈ c, s.timing = .clock)
    (unstated : ∀ s ∈ c, s.settings.start = none ∧ s.settings.opens = none)
    (h : List.Forall₂ (fun s x => s.stretch? cfg clock = some x)
      (c.filledFrom clock (some x.finish) (some x.closes)) ts) :
    (x :: ts).IsChain Stretch.Adjoins := by
  induction c generalizing x ts with
  | nil =>
      cases h
      exact .singleton x
  | cons s rest ih =>
      obtain ⟨hclock, clocked⟩ := List.forall_mem_cons.mp clocked
      obtain ⟨⟨hstart, hopens⟩, unstated⟩ := List.forall_mem_cons.mp unstated
      cases h with
      | @cons _ y _ ys hy hys =>
          obtain ⟨start, finish, bounds, -⟩ := Spec.stretch?_eq_some.mp hy
          rw [finish, Spec.closesAt?_of_stretch? (s := s.filledIn _ _) hclock hy] at hys
          simp only [Spec.filledIn, hstart, hopens, Option.orElse_eq_orElse, Option.orElse_eq_or,
            Option.none_or] at start bounds
          have hadjoins : x.Adjoins y :=
            ⟨Window.opens_of_bounds? bounds, (Option.some.inj start).symm⟩
          exact .cons_cons hadjoins (ih clocked unstated hys)

/-- So do those of a chain whose first segment says, or is given, where it starts. -/
theorem ChainSpec.isChain_of_filled {c : ChainSpec α} {current : Option α} {ts : Timeline α}
    (clocked : ∀ s ∈ c, s.timing = .clock)
    (unstated : ∀ s ∈ c.tail, s.settings.start = none ∧ s.settings.opens = none)
    (h : List.Forall₂ (fun s x => s.stretch? cfg clock = some x) (c.filled clock current) ts) :
    ts.IsChain Stretch.Adjoins := by
  cases c with
  | nil =>
      cases h
      exact .nil
  | cons s rest =>
      obtain ⟨hclock, clocked⟩ := List.forall_mem_cons.mp clocked
      cases h with
      | @cons _ x _ xs hx hxs =>
          obtain ⟨-, finish, -, -⟩ := Spec.stretch?_eq_some.mp hx
          rw [finish, Spec.closesAt?_of_stretch? (s := s.filledIn _ _) hclock hx] at hxs
          exact isChain_of_filledFrom clocked unstated hxs

end Filling

end Inbetween
