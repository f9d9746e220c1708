import Inbetween.Derived

/-!
# Scripts

A script is host code written down as data. Its steps name cells, slots and animations, make them,
read them and change them. External sources and on-end hooks may be scripts too, so steps can run in
the middle of other steps.
-/

namespace Inbetween.Stage

/-- Which slot of an interpolation is meant. -/
inductive Part where
  | start
  | finish
  | time
  deriving DecidableEq, Repr

/-- What a scripted hook returns. -/
inductive Return where
  | finish
  | add (x : Float)
  | scale (x : Float)
  | const (x : Float)
  deriving Repr

def Return.apply : Return → Float → Float
  | .finish, v => v
  | .add x, v => v + x
  | .scale x, v => v * x
  | .const x, _ => x

mutual

/-- How a slot is made. -/
inductive SlotDef where
  | constant (v : Float)
  /-- A new link to an animation. -/
  | animation (id : String)
  /-- Reads a cell. -/
  | cell (id : String)
  /-- Reads a cell and then adds 1 to it. -/
  | counter (id : String)
  /-- A clone of a named slot. -/
  | slot (id : String)
  /-- A clone of a slot inside an interpolation. -/
  | part (id : String) (part : Part)
  /-- Runs steps at each read, and then reads as a constant. -/
  | script (v : Float) (steps : List Step)

inductive TimeDef where
  | slot (s : SlotDef)
  | pace (opens duration : Float)
  | window (opens closes : Float)

/-- What a scripted hook does, in order, before it returns. -/
inductive Deed where
  /-- Pins the link that is being read to the end value. -/
  | settleFinish
  /-- Pins the link that is being read. -/
  | settle (v : Float)
  | unsettle
  | step (s : Step)

inductive HookDef where
  | make (returns : Return) (deeds : List Deed)

inductive Action where
  | setTime (time : Float)
  | advance (span : Float)
  | invalidate
  | clock
  | cell (id : String) (v : Float)
  | cellSet (id : String) (v : Float)
  | cellGet (id : String)
  | slot (id : String) (s : SlotDef)
  | slotRead (id : String)
  | slotInfo (id : String)
  /-- Pins a named slot, or frees it when there is no value. -/
  | slotSettle (id : String) (v : Option Float)
  | slotUnsettle (id : String)
  | partRead (id : String) (part : Part)
  | partInfo (id : String) (part : Part)
  | partSettle (id : String) (part : Part) (v : Option Float)
  | interpolate (id : String) (start finish : SlotDef) (time : TimeDef)
      (easing extend : Option String)
  | bezier (id : String) (points : Bezier Float) (time : TimeDef) (extend : Option String)
      (ratios : List Float)
  | wrap (id : String) (low high source : SlotDef)
  | rate (id : String) (source : SlotDef)
  | chain (id : String) (segments : List String)
  /-- A strategy of the host: the clock time, over at `v` after that. -/
  | endsAt (id : String) (v : Float)
  /-- A strategy of the host: `a` times the clock time plus `b`. -/
  | affine (id : String) (a b : Float)
  /-- Builds a tween from JSON texts of its description and of a configuration. -/
  | spec (id : String) (text : String) (config : Option String) (current : Option Float)
  | chainSpec (id : String) (text : String) (config : Option String) (current : Option Float)
  | setStart (id : String) (s : SlotDef)
  | setFinish (id : String) (s : SlotDef)
  | setTimeSlot (id : String) (s : SlotDef)
  | setPace (id : String) (opens duration : Float)
  /-- Sets the mode of a name, or the default when there is no name. -/
  | setEasing (id : String) (mode : Option String)
  | setExtend (id : String) (mode : Option String)
  | onEnd (id : String) (hook : Option HookDef)
  /-- Runs a step while the configuration of an interpolation is held. -/
  | held (id : String) (step : Step)
  | evaluate (id : String)
  | sample (id : String)
  /-- Evaluates an animation as if it were read through a named slot. -/
  | evaluateIn (id slot : String)
  | info (id : String)

inductive Step where
  /-- An action, at a time of its own or at the time of the stage. -/
  | make (time : Option Float) (action : Action)

end

instance : Inhabited Step := ⟨.make none .clock⟩

/-- The clock of the stage at the beginning. -/
inductive Opening where
  | new
  | startingAt (time : Float)
  /-- The clock of a JSON text. -/
  | text (s : String)

structure Script where
  opening : Opening := .new
  steps : List Step

end Inbetween.Stage
