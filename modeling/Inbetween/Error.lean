import Inbetween.Decimal.Layout

/-!
# Errors

Describing, building and reconfiguring can fail; evaluating cannot. Each failure is recorded by its
cause, and `message` puts it into words.
-/

namespace Inbetween

/-- Why a JSON text is not a description. -/
inductive ReadError where
  /-- The text is not JSON, is nested too deep, or has a value of the wrong kind somewhere. -/
  | malformed
  | duplicateField (name : String)
  | missingField (name : String)
  | unknownEasing (name : String)
  | unknownExtend (name : String)
  /-- The time ratio is neither a number nor a description. -/
  | noTiming
  deriving DecidableEq, Repr

inductive Error (α : Type) where
  | unknownEasing (name : String)
  | unknownExtend (name : String)
  | missingField (name : String)
  /-- Neither the duration nor the end of a window is given. -/
  | missingEnd
  | emptyWindow (opens closes : α)
  | unreadable (cause : ReadError)
  | busy
  | emptyChain
  | lengthMismatch (expected found : Nat)
  deriving DecidableEq, Repr

def ReadError.message : ReadError → String
  | .malformed => "malformed text"
  | .duplicateField name => s!"duplicate field \x60{name}\x60"
  | .missingField name => s!"missing field \x60{name}\x60"
  | .unknownEasing name => s!"unknown easing mode '{name}'"
  | .unknownExtend name => s!"unknown extend mode '{name}'"
  | .noTiming => "data did not match any variant of untagged enum TimeSpec"

def Error.message : Error Float → String
  | .unknownEasing name => s!"unknown easing mode '{name}'"
  | .unknownExtend name => s!"unknown extend mode '{name}'"
  | .missingField name => s!"missing required field '{name}'"
  | .missingEnd => "either dt or endt must be given"
  | .emptyWindow opens closes =>
    let opensText := Decimal.Layout.message.text opens
    let closesText := Decimal.Layout.message.text closes
    s!"time window is empty: startt {opensText} must be before endt {closesText}"
  | .unreadable cause => s!"tween json parse error: {cause.message}"
  | .busy => "interpolation is being evaluated and cannot be reconfigured"
  | .emptyChain => "a chain needs at least one segment"
  | .lengthMismatch expected found =>
    s!"component count mismatch: expected {expected}, found {found}"

end Inbetween
