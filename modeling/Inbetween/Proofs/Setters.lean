import Inbetween.World.Journal
import Mathlib.Data.List.Induction

/-!
# Setters

A setter gives a new value to one field of a configuration and keeps the other four. So after any
number of setters each field is what was last given to it, or else what it was at first. A journal
tells with which configuration an animation has come, and which setters have changed it since.
-/

namespace Inbetween

variable {α : Type} {V : Vocabulary}

/-! ## Field by field -/

/-- What each setter makes of a configuration: its field is new, and the other four are kept. The
time has two setters, since it is set to a slot or to the pace of a window. -/
def Change.Sets : Change α V → Interpolation α V → Interpolation α V → Prop
  | .start s, i, i' =>
    i'.start = s ∧ i'.finish = i.finish ∧ i'.time = i.time ∧
      i'.easing = i.easing ∧ i'.extend = i.extend
  | .finish s, i, i' =>
    i'.start = i.start ∧ i'.finish = s ∧ i'.time = i.time ∧
      i'.easing = i.easing ∧ i'.extend = i.extend
  | .time (.slot s), i, i' =>
    i'.start = i.start ∧ i'.finish = i.finish ∧ i'.time = .slot s ∧
      i'.easing = i.easing ∧ i'.extend = i.extend
  | .time (.pace p), i, i' =>
    i'.start = i.start ∧ i'.finish = i.finish ∧ i'.time = .pace p ∧
      i'.easing = i.easing ∧ i'.extend = i.extend
  | .easing mode, i, i' =>
    i'.start = i.start ∧ i'.finish = i.finish ∧ i'.time = i.time ∧
      i'.easing = mode ∧ i'.extend = i.extend
  | .extend mode, i, i' =>
    i'.start = i.start ∧ i'.finish = i.finish ∧ i'.time = i.time ∧
      i'.easing = i.easing ∧ i'.extend = mode

/-- There is just one such configuration. -/
theorem Change.sets_iff {change : Change α V} {i i' : Interpolation α V} :
    change.Sets i i' ↔ i' = i.change change := by
  obtain ⟨start, finish, time, easing, extend⟩ := i'
  cases change with
  | time t => cases t <;> simp [Sets, Interpolation.change]
  | _ => simp [Sets, Interpolation.change]

namespace Change

/-! What a change gives to each of the fields, if it is the field of its setter. -/

def start? : Change α V → Option (Slot α V)
  | .start s => some s
  | _ => none

def finish? : Change α V → Option (Slot α V)
  | .finish s => some s
  | _ => none

def time? : Change α V → Option (TimeSource α V)
  | .time t => some t
  | _ => none

def easing? : Change α V → Option Easing
  | .easing mode => some mode
  | _ => none

def extend? : Change α V → Option Extend
  | .extend mode => some mode
  | _ => none

end Change

/-- The second configuration comes from the first one by changes: each field is what the last change
of this field has given to it, or else what it was. -/
structure Interpolation.Overwritten (first : Interpolation α V) (changes : List (Change α V))
    (i : Interpolation α V) : Prop where
  start : i.start = (changes.filterMap Change.start?).getLast?.getD first.start
  finish : i.finish = (changes.filterMap Change.finish?).getLast?.getD first.finish
  time : i.time = (changes.filterMap Change.time?).getLast?.getD first.time
  easing : i.easing = (changes.filterMap Change.easing?).getLast?.getD first.easing
  extend : i.extend = (changes.filterMap Change.extend?).getLast?.getD first.extend

namespace Interpolation.Overwritten

variable {first i i' : Interpolation α V} {changes : List (Change α V)} {change : Change α V}

theorem refl (i : Interpolation α V) : i.Overwritten [] i := ⟨rfl, rfl, rfl, rfl, rfl⟩

/-- One more change is the last one for its field, and for no other one. -/
theorem snoc (h : first.Overwritten changes i) (hset : change.Sets i i') :
    first.Overwritten (changes ++ [change]) i' := by
  obtain rfl := Change.sets_iff.mp hset
  obtain ⟨hstart, hfinish, htime, heasing, hextend⟩ := h
  cases change <;>
    exact ⟨by simp [Interpolation.change, Change.start?, hstart],
      by simp [Interpolation.change, Change.finish?, hfinish],
      by simp [Interpolation.change, Change.time?, htime],
      by simp [Interpolation.change, Change.easing?, heasing],
      by simp [Interpolation.change, Change.extend?, hextend]⟩

end Interpolation.Overwritten

/-! ## In the journal -/

namespace Event

/-- The strategy with which the animation is added. -/
def adds? (a : AnimationId) : Event α V → Option (Strategy α V)
  | .added first strategies => if first ≤ a then strategies[a - first]? else none
  | _ => none

/-- The change that is made of the animation. -/
def changes? (a : AnimationId) : Event α V → Option (Change α V)
  | .reconfigured b change => if b = a then some change else none
  | _ => none

end Event

/-- The animation comes with a configuration, and these are the events since then. It has been there
from the beginning, or it has been added. -/
inductive ComesWith (a : AnimationId) (initial : Option (Interpolation α V)) :
    List (Event α V) → Interpolation α V → List (Event α V) → Prop
  | initially {i : Interpolation α V} {j : List (Event α V)} (h : initial = some i)
      (kept : ∀ e ∈ j, e.adds? a = none) : ComesWith a initial j i j
  | added {before since : List (Event α V)} {e : Event α V} {i : Interpolation α V}
      (h : e.adds? a = some (.interpolate i)) (kept : ∀ e ∈ since, e.adds? a = none) :
      ComesWith a initial (before ++ e :: since) i since

/-- The journal tells that the interpolation has this configuration: the one with which it has come,
overwritten by the changes since then. -/
def Configured (a : AnimationId) (initial : Option (Interpolation α V)) (j : List (Event α V))
    (i : Interpolation α V) : Prop :=
  ∃ first since, ComesWith a initial j first since ∧
    first.Overwritten (since.filterMap (Event.changes? a)) i

section Snoc

variable {a : AnimationId} {initial : Option (Interpolation α V)} {j since : List (Event α V)}
  {i i' : Interpolation α V} {e : Event α V}

theorem ComesWith.snoc (h : ComesWith a initial j i since) (he : e.adds? a = none) :
    ComesWith a initial (j ++ [e]) i (since ++ [e]) := by
  cases h with
  | initially h kept => exact .initially h (List.forall_mem_append.mpr ⟨kept, by simpa using he⟩)
  | added h kept =>
      rw [List.append_assoc, List.cons_append]
      exact .added h (List.forall_mem_append.mpr ⟨kept, by simpa using he⟩)

namespace Configured

theorem nil (h : initial = some i) : Configured a initial [] i :=
  ⟨i, [], .initially h nofun, .refl i⟩

theorem added (he : e.adds? a = some (.interpolate i)) : Configured a initial (j ++ [e]) i :=
  ⟨i, [], .added he nofun, .refl i⟩

theorem changed {change : Change α V} (h : Configured a initial j i) (hadds : e.adds? a = none)
    (he : e.changes? a = some change) (hset : change.Sets i i') :
    Configured a initial (j ++ [e]) i' := by
  obtain ⟨first, since, hcomes, hover⟩ := h
  refine ⟨first, since ++ [e], hcomes.snoc hadds, ?_⟩
  rw [List.filterMap_append, List.filterMap_cons_some he, List.filterMap_nil]
  exact hover.snoc hset

theorem spared (h : Configured a initial j i) (hadds : e.adds? a = none)
    (he : e.changes? a = none) : Configured a initial (j ++ [e]) i := by
  obtain ⟨first, since, hcomes, hover⟩ := h
  refine ⟨first, since ++ [e], hcomes.snoc hadds, ?_⟩
  rwa [List.filterMap_append, List.filterMap_cons_none he, List.filterMap_nil, List.append_nil]

end Configured

end Snoc

end Inbetween
