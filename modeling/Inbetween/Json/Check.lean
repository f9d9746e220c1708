import Inbetween.Decimal.Reading
import Inbetween.Json.Tree

/-!
# What can be read and what can be skipped

A value that is kept has to be readable: no fault, only strings that spell characters, only numbers
in range, and containers within the depth limit. A value that is skipped only has to be whole.
-/

namespace Inbetween.Json

/-- How many containers may be open at a time. -/
def depthLimit : Nat := 127

mutual

/-- Is there no fault in the value? -/
def isWhole : Json → Bool
  | .array items => itemsWhole items
  | .object fields => fieldsWhole fields
  | .fault => false
  | _ => true

def itemsWhole : List Json → Bool
  | [] => true
  | v :: rest => v.isWhole && itemsWhole rest

def fieldsWhole : List (Option String × Json) → Bool
  | [] => true
  | (_, v) :: rest => v.isWhole && fieldsWhole rest

end

mutual

/-- Can the value be kept, inside `depth` containers? -/
def isReadable (depth : Nat) : Json → Bool
  | .null | .bool _ => true
  | .number n => n.toFloat?.isSome
  | .string content => content.isSome
  | .array items => decide (depth < depthLimit) && itemsReadable (depth + 1) items
  | .object fields => decide (depth < depthLimit) && fieldsReadable (depth + 1) fields
  | .fault => false

def itemsReadable (depth : Nat) : List Json → Bool
  | [] => true
  | v :: rest => v.isReadable depth && itemsReadable depth rest

def fieldsReadable (depth : Nat) : List (Option String × Json) → Bool
  | [] => true
  | (key, v) :: rest => key.isSome && v.isReadable depth && fieldsReadable depth rest

end

end Inbetween.Json
