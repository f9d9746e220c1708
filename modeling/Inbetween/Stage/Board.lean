import Inbetween.Stage.Script
import Inbetween.World.Routine

/-!
# The board

What the host of a stage remembers: its clock, its cells, and what its names are bound to. A name is
bound to one cell, one slot and one animation at a time; what it was bound to before lives on where
it is used.
-/

namespace Inbetween.Stage

/-- External sources: cells by their place, and scripts. -/
inductive Source where
  | cell (place : Nat)
  | counter (place : Nat)
  | script (v : Float) (steps : List Step)

/-- A hook and the name of the animation that it was set on. -/
structure Hook where
  owner : String
  hook : HookDef

inductive Custom where
  | endsAt (v : Float)
  | affine (a b : Float)

def vocabulary : Vocabulary := ⟨Source, Hook, Custom⟩

/-! ## Names -/

/-- What names are bound to, in the order of the names. -/
abbrev Names (β : Type) := List (String × β)

namespace Names

variable {β : Type}

def find? (names : Names β) (id : String) : Option β :=
  List.lookup id names

/-- Binds a name anew. -/
def bind (id : String) (b : β) : Names β → Names β
  | [] => [(id, b)]
  | (other, c) :: rest =>
    if id < other then (id, b) :: (other, c) :: rest
    else if id = other then (id, b) :: rest
    else (other, c) :: bind id b rest

theorem find?_bind_self (names : Names β) (id : String) (b : β) :
    (names.bind id b).find? id = some b := by
  induction names with
  | nil => simp [bind, find?]
  | cons entry rest ih =>
    obtain ⟨other, c⟩ := entry
    rw [bind]
    split
    · simp [find?]
    · split
      · simp [find?]
      · rename_i hne
        have hbeq : (id == other) = false := by simpa using hne
        simpa [find?, List.lookup_cons, hbeq] using ih

theorem find?_bind_of_ne (names : Names β) {id other : String} (h : id ≠ other) (b : β) :
    (names.bind id b).find? other = names.find? other := by
  have hbeq : (other == id) = false := by simpa using h.symm
  induction names with
  | nil => simp [bind, find?, List.lookup_cons, hbeq]
  | cons entry rest ih =>
    obtain ⟨key, c⟩ := entry
    rw [bind]
    split
    · simp [find?, List.lookup_cons, hbeq]
    · split
      · rename_i heq
        subst heq
        simp [find?, List.lookup_cons, hbeq]
      · cases hkey : other == key with
        | true => simp [find?, List.lookup_cons, hkey]
        | false => simpa [find?, List.lookup_cons, hkey] using ih

/-- The first name of a thing. -/
def nameOf? (names : Names β) (p : β → Bool) : Option String :=
  (List.find? (fun entry => p entry.2) names).map (·.1)

end Names

/-! ## Replies -/

/-- What a slot looks like from outside. -/
inductive SlotInfo where
  | constant (v : Float)
  | external
  | link (target : Option String) (busy : Bool) (pin : Option Float)

inductive TimeInfo where
  | slot (s : SlotInfo)
  | pace (p : Pace Float)

structure InterpolationInfo where
  start : SlotInfo
  finish : SlotInfo
  time : TimeInfo
  easing : Easing
  extend : Extend

/-- What an action comes to. -/
inductive Reply where
  | ok
  | flag (b : Bool)
  | count (n : Nat)
  | number (v : Float)
  | numbers (vs : List Float)
  | clock (c : Clock Float)
  | sample (s : Sample Float)
  /-- An animation, by the text that shows it. -/
  | animation (text : String)
  | slot (s : SlotInfo)
  | info (text : String) (interpolation : Option InterpolationInfo)
  | failed (e : Error Float)
  /-- A JSON text other than a tween description could not be read. -/
  | unreadable (e : ReadError)
  | notAnimationSlot
  | notInterpolation
  /-- A name is not bound, or an interpolation has no such slot. -/
  | unbound
  /-- The calls were nested too deep. -/
  | unfinished

/-- What a script reports while a step is running. -/
inductive Happening where
  /-- A hook runs: the name it was set on, the name of the slot that is being read, the end value,
  and the state of that slot. -/
  | hook (owner : String) (slot : Option String) (finish : Float) (busy : Bool) (pin : Option Float)
  /-- A step of a source or a hook has been played. -/
  | played (verb : String) (reply : Reply)

structure Board where
  clock : Clock Float
  cells : Array Float := #[]
  cellNames : Names Nat := []
  slotNames : Names (Slot Float vocabulary) := []
  animationNames : Names AnimationId := []
  happenings : Array Happening := #[]

end Inbetween.Stage
