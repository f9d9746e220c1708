/-!
# Samples

What an animation reports at a clock time, before an on-end hook has had its say: a value, or the
end value together with the news that the animation is over.
-/

namespace Inbetween

inductive Sample (α : Type) where
  | value (v : α)
  | ended (v : α)
  deriving Repr, DecidableEq

namespace Sample

variable {α : Type}

/-- The number that is reported either way. -/
def get : Sample α → α
  | .value v => v
  | .ended v => v

def isEnded : Sample α → Bool
  | .value _ => false
  | .ended _ => true

end Sample

end Inbetween
