import Inbetween.Easing.Mode
import Inbetween.Extend

/-!
# Tween descriptions

A description says what a tween runs between, over which time, and along which curve. Anything may
be left out; what is missing is filled in when the tween is built. The time ratio comes from the
clock, from a fixed number, or from another description, which may itself be driven by a third one.
So a description is a row of settings, one for each level, with a clock or a number at its end.
-/

namespace Inbetween

/-- What one level of a description gives. -/
structure Settings (α : Type) where
  start : Option α := none
  finish : Option α := none
  opens : Option α := none
  closes : Option α := none
  lasts : Option α := none
  extend : Option Extend := none
  easing : Option Easing := none
  deriving DecidableEq, Repr

/-- Where the time ratio of a level comes from. -/
inductive Timing (α : Type) where
  /-- From the clock, through the window of the level. -/
  | clock
  /-- From a number. The window of the level is ignored. -/
  | fixed (ratio : α)
  /-- From the tween of the next level. The window of this level is ignored. -/
  | tween (settings : Settings α) (timing : Timing α)
  deriving DecidableEq, Repr

structure Spec (α : Type) where
  settings : Settings α := {}
  timing : Timing α := .clock
  deriving DecidableEq, Repr

namespace Spec

variable {α : Type}

/-! ## Writing descriptions -/

def withEasing (mode : Easing) : Spec α := ⟨{ easing := some mode }, .clock⟩

def lerp : Spec α := withEasing .linear

/-- A description with the curve that an author's name stands for. -/
def named (name : String) : Except (Error α) (Spec α) :=
  (Easing.parse name).map withEasing

/-- The curve of a family that eases in and out. -/
def ease (family : String) : Except (Error α) (Spec α) := named ("ease_" ++ family)

def easeIn (family : String) : Except (Error α) (Spec α) := named ("ease_in_" ++ family)

def easeOut (family : String) : Except (Error α) (Spec α) := named ("ease_out_" ++ family)

def withStart (s : Spec α) (v : α) : Spec α := { s with settings.start := some v }

def withFinish (s : Spec α) (v : α) : Spec α := { s with settings.finish := some v }

def withOpens (s : Spec α) (v : α) : Spec α := { s with settings.opens := some v }

def withCloses (s : Spec α) (v : α) : Spec α := { s with settings.closes := some v }

def withLasts (s : Spec α) (v : α) : Spec α := { s with settings.lasts := some v }

def withExtend (s : Spec α) (mode : Extend) : Spec α := { s with settings.extend := some mode }

/-- Stays at the ratio `v`. -/
def fixedAt (s : Spec α) (v : α) : Spec α := { s with timing := .fixed v }

def drivenBy (s driver : Spec α) : Spec α :=
  { s with timing := .tween driver.settings driver.timing }

/-! ## Vectors -/

/-- The description of one component, whose start and end are replaced where they are given. -/
def component (s : Spec α) (start finish : Option α) : Spec α :=
  { s with settings.start := start <|> s.settings.start
           settings.finish := finish <|> s.settings.finish }

/-- One description for each component of a vector. At least one side is given; a side that is left
out stays as the description has it. -/
def perComponent (s : Spec α) :
    (starts finishes : Option (List α)) → Except (Error α) (List (Spec α))
  | some xs, some ys =>
    if xs.length = ys.length then
      .ok (List.zipWith (fun x y => s.component (some x) (some y)) xs ys)
    else .error (.lengthMismatch xs.length ys.length)
  | some xs, none => .ok (xs.map fun x => s.component (some x) none)
  | none, some ys => .ok (ys.map fun y => s.component none (some y))
  | none, none => .error (.missingField "end")

end Spec

/-! ## Chains -/

/-- The descriptions of the segments of a chain, in the order in which they play. -/
abbrev ChainSpec (α : Type) := List (Spec α)

namespace ChainSpec

variable {α : Type}

/-- The columns of rows of one common width. -/
def columns {β : Type} : (width : Nat) → List (List β) → List (List β)
  | width, [] => List.replicate width []
  | width, row :: rows => List.zipWith List.cons row (columns width rows)

theorem length_columns {β : Type} (width : Nat) (rows : List (List β))
    (h : ∀ row ∈ rows, row.length = width) : (columns width rows).length = width := by
  induction rows with
  | nil => simp [columns]
  | cons row rows ih =>
    have hrow : row.length = width := h row List.mem_cons_self
    have hrows := ih fun r hr => h r (List.mem_cons_of_mem _ hr)
    simp [columns, hrow, hrows]

/-- One chain for each component of a vector, from one row of component descriptions for each
segment. All rows have the width of the first one. -/
def perComponent : List (List (Spec α)) → Except (Error α) (List (ChainSpec α))
  | [] => .error .emptyChain
  | first :: rows =>
    match rows.find? fun row => row.length != first.length with
    | some row => .error (.lengthMismatch first.length row.length)
    | none => .ok (columns first.length (first :: rows))

end ChainSpec

end Inbetween
