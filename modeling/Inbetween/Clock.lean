import Inbetween.Scalar

/-!
# Clocks

A clock is the time that all animations of a frame share. Each change of it raises the generation,
so that a host can tell when values that it kept are stale. Making a clock is no change.
-/

namespace Inbetween

structure Clock (α : Type) where
  time : α
  generation : Nat
  deriving Repr

namespace Clock

variable {α : Type}

def startingAt (time : α) : Clock α := ⟨time, 0⟩

def new [Scalar α] : Clock α := startingAt 0.0

def setTime (c : Clock α) (time : α) : Clock α := ⟨time, c.generation + 1⟩

def advance [Scalar α] (c : Clock α) (span : α) : Clock α := c.setTime (c.time + span)

/-- Marks kept values as stale and leaves the time alone. -/
def invalidate (c : Clock α) : Clock α := c.setTime c.time

end Clock

end Inbetween
