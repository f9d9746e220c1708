import Inbetween.World.Scene

/-!
# References

Animations refer to links by their slots, and a chain refers to its segments. A reference path is
the list of the parts along which one gets from an animation, or a slot, to a link. It goes on
through the links on its way unless they are pinned, and it ends as soon as it comes to the link.
-/

namespace Inbetween

variable {α : Type} {V : Vocabulary}

/-- A part of an animation that refers to something. -/
inductive Part where
  | time
  | start
  | finish
  | low
  | high
  | source
  | segment (position : Nat)
  deriving DecidableEq, Repr

namespace Strategy

/-- The slot that a part of an animation is. -/
def slotAt? : Strategy α V → Part → Option (Slot α V)
  | .interpolate i, .time =>
    match i.time with
    | .slot s => some s
    | .pace _ => none
  | .interpolate i, .start => some i.start
  | .interpolate i, .finish => some i.finish
  | .bezier _ time _, .time =>
    match time with
    | .slot s => some s
    | .pace _ => none
  | .wrap low _ _, .low => some low
  | .wrap _ high _, .high => some high
  | .wrap _ _ source, .source => some source
  | .rate source _ _, .source => some source
  | _, _ => none

def segmentAt? : Strategy α V → Nat → Option AnimationId
  | .chain segments, position => segments[position]?
  | _, _ => none

end Strategy

namespace Scene

/-- A link that is there and is not pinned. -/
def Unsettled (sc : Scene α V) (l : LinkId) (here : Link α) : Prop :=
  sc.links[l]? = some here ∧ here.pin = none

mutual

/-- The path leads from the slot to the link. -/
inductive SlotLeads (sc : Scene α V) (l : LinkId) : Slot α V → List Part → Prop
  | here : sc.SlotLeads l (.link l) []
  | through {m : LinkId} {there : Link α} {path : List Part} :
      m ≠ l → sc.Unsettled m there → sc.AnimationLeads l there.target path →
      sc.SlotLeads l (.link m) path

/-- The path leads from the animation to the link. -/
inductive AnimationLeads (sc : Scene α V) (l : LinkId) : AnimationId → List Part → Prop
  | slot {a : AnimationId} {part : Part} {s : Slot α V} {path : List Part} :
      (sc.animation a).strategy.slotAt? part = some s → sc.SlotLeads l s path →
      sc.AnimationLeads l a (part :: path)
  | segment {a b : AnimationId} {position : Nat} {path : List Part} :
      (sc.animation a).strategy.segmentAt? position = some b → sc.AnimationLeads l b path →
      sc.AnimationLeads l a (.segment position :: path)

end

/-- The path leads from an unsettled link back to itself. -/
def Returns (sc : Scene α V) (l : LinkId) (path : List Part) : Prop :=
  ∃ here, sc.Unsettled l here ∧ sc.AnimationLeads l here.target path

/-- No link can be reached from itself along two different paths. -/
def ReturnsOnce (sc : Scene α V) : Prop :=
  ∀ l path path', sc.Returns l path → sc.Returns l path' → path = path'

/-- There are no rates, and chains are made of older animations, as they are when their segments
have to be there before them. -/
structure Steady (sc : Scene α V) : Prop where
  noRate : ∀ a source last current, (sc.animation a).strategy ≠ .rate source last current
  older : ∀ a segments, (sc.animation a).strategy = .chain segments → ∀ s ∈ segments, s < a

end Scene

end Inbetween
