import Inbetween.Binary64.Scalar
import Inbetween.World.Evaluate

/-!
# Rehearsals

A description is rehearsed by building it in an empty scene, with a host that has nothing of its
own, and sampling what was built at a row of clock times.
-/

namespace Inbetween

/-- The vocabulary of a host without sources, hooks and strategies. -/
def Vocabulary.empty : Vocabulary := ⟨Empty, Empty, Empty⟩

namespace Rehearsal

def host : Host Float .empty Unit := ⟨Empty.elim, Empty.elim, Empty.elim⟩

def samplesAt (times : List Float) :
    Except (Error Float) AnimationId →
      Routine Float .empty Unit (Except (Error Float) (List (Sample Float)))
  | .error e => return .error e
  | .ok a => return .ok (← times.mapM fun time => Routine.ask (.sample a (.startingAt time)))

/-- How deep the calls of a rehearsal may be nested. -/
def depth : Nat := 10000

/-- The outcome, and the log that was kept until it stood. -/
structure Report where
  outcome : Option (Except (Error Float) (List (Sample Float)))
  log : List LogLine

def run (r : Routine Float .empty Unit (Except (Error Float) (List (Sample Float)))) : Report :=
  match host.run depth r { memory := () } with
  | none => ⟨none, []⟩
  | some (outcome, w) => ⟨some outcome, w.journal.toList.filterMap Event.line?⟩

end Rehearsal

open Rehearsal Routine

def Spec.rehearse (s : Spec Float) (cfg : Config) (clock : Clock Float) (current : Option Float)
    (times : List Float) : Report :=
  run do samplesAt times (← ask (.build s cfg clock current))

def ChainSpec.rehearse (c : ChainSpec Float) (cfg : Config) (clock : Clock Float)
    (current : Option Float) (times : List Float) : Report :=
  run do samplesAt times (← ask (.buildChain c cfg clock current))

end Inbetween
