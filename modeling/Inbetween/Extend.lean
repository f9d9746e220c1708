import Inbetween.Error
import Inbetween.Scalar
import Inbetween.Text.Blank

/-!
# Extend modes

What a tween does with time ratios outside the range from 0 to 1. Integral parts are taken toward
zero. A ratio that is not a number fails every comparison and is passed on.
-/

namespace Inbetween

inductive Extend where
  /-- Hold the start before the window and the end after it. -/
  | constant
  /-- Follow the curve outside the window. -/
  | extrapolate
  /-- Start over after the end. -/
  | repeating
  /-- Run to the end and back. -/
  | reverse
  deriving DecidableEq, Repr, Inhabited

/-- Where in its course a tween is. -/
inductive Phase (α : Type) where
  | before
  | past
  /-- Along the curve at this ratio. -/
  | along (ratio : α)
  deriving DecidableEq, Repr

namespace Extend

def all : List Extend := [.constant, .extrapolate, .repeating, .reverse]

def name : Extend → String
  | .constant => "constant"
  | .extrapolate => "extrapolate"
  | .repeating => "repeat"
  | .reverse => "reverse"

def code : Extend → Int
  | .constant => 1
  | .extrapolate => 2
  | .repeating => 3
  | .reverse => 4

/-- An unknown code leaves ratios as they are, as extrapolation does. -/
def ofCode : Int → Extend
  | 1 => .constant
  | 3 => .repeating
  | 4 => .reverse
  | _ => .extrapolate

theorem ofCode_code (mode : Extend) : ofCode mode.code = mode := by
  cases mode <;> rfl

/-- The mode that a text names. -/
def ofText? (s : String) : Option Extend :=
  all.find? fun mode => mode.name.toList == Text.plainName s

def parse {α : Type} (s : String) : Except (Error α) Extend :=
  match ofText? s with
  | some mode => .ok mode
  | none => .error (.unknownExtend s)

/-! ## Normalized ratios -/

variable {α : Type} [Scalar α]

/-- Ratios up to this bound are not wrapped, so that rounding at the end of a cycle does not throw
the value back to the start. -/
def tolerance : α := 1.0001

def wrap (t : α) : α :=
  if t > tolerance then t - Scalar.trunc t
  else if t < 0.0 then 1.0 + t - Scalar.trunc t
  else t

/-- The way back is taken in odd cycles. -/
def fold (t : α) : α :=
  let size := if t < 0.0 then -t else t
  let whole := Scalar.trunc size
  let part := size - whole
  if Scalar.remainder whole 2.0 == 1.0 then 1.0 - part else part

def normalize : Extend → α → Phase α
  | .constant, t => if t < 0.0 then .before else if t > 1.0 then .past else .along t
  | .extrapolate, t => .along t
  | .repeating, t => .along (wrap t)
  | .reverse, t => .along (fold t)

end Extend

end Inbetween
