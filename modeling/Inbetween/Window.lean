import Inbetween.Clock
import Inbetween.Error

/-!
# Time windows

The stretch of clock time over which a tween runs. A window comes from whatever was given of its
opening, its closing and its duration; what is missing is taken from the clock.
-/

namespace Inbetween

structure Window (α : Type) where
  opens : α
  closes : α
  deriving DecidableEq, Repr

/-- The ratio of a clock time: `(time - opens) * rate`. -/
structure Pace (α : Type) where
  opens : α
  /-- One over the duration. -/
  rate : α
  deriving DecidableEq, Repr

namespace Pace

variable {α : Type} [Scalar α]

/-- Runs from 0 to 1 over `duration`, which is not checked. -/
def ofDuration (opens duration : α) : Pace α := ⟨opens, 1.0 / duration⟩

def ratio (p : Pace α) (clock : Clock α) : α := (clock.time - p.opens) * p.rate

end Pace

namespace Window

variable {α : Type} [Scalar α]

/-- A window closes after it opens. Bounds that are not numbers make no window. -/
def make (opens closes : α) : Except (Error α) (Window α) :=
  if opens < closes then .ok ⟨opens, closes⟩ else .error (.emptyWindow opens closes)

/-- The bounds that follow from the opening, the closing and the duration, each of them optional.
The opening is the given one, else counted back from the closing, else the time of the clock. There
are none if neither the closing nor the duration is given. -/
def bounds? (opens closes lasts : Option α) (clock : Clock α) : Option (α × α) :=
  let first :=
    match opens, closes, lasts with
    | some o, _, _ => o
    | none, some c, some d => c - d
    | none, _, _ => clock.time
  match closes, lasts with
  | some c, _ => some (first, c)
  | none, some d => some (first, first + d)
  | none, none => none

def resolve (opens closes lasts : Option α) (clock : Clock α) : Except (Error α) (Window α) :=
  match bounds? opens closes lasts clock with
  | none => .error .missingEnd
  | some (o, c) => make o c

def duration (w : Window α) : α := w.closes - w.opens

def inverseDuration (w : Window α) : α := 1.0 / w.duration

def pace (w : Window α) : Pace α := .ofDuration w.opens w.duration

end Window

end Inbetween
