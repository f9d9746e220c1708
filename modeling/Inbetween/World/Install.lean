import Inbetween.Tween.Plan
import Inbetween.World.Scene

/-!
# Plans in a scene

A plan becomes one interpolation for each of its levels. The innermost one follows its window or
stays at its number, and each outer one reads its time ratio through a link to the next.
-/

namespace Inbetween

variable {α : Type} [Scalar α] {V : Vocabulary}

def Level.strategy (level : Level α) (time : TimeSource α V) : Strategy α V :=
  .interpolate
    { start := .constant level.start
      finish := .constant level.finish
      time := time
      easing := level.easing
      extend := level.extend }

/-- Adds the animations behind a drive and gives the time source that reads them. -/
def Drive.install : Drive α → Scene α V → TimeSource α V × Scene α V
  | .window w, sc => (.pace w.pace, sc)
  | .fixed ratio, sc => (.slot (.constant ratio), sc)
  | .tween level drive, sc =>
    let (time, sc) := drive.install sc
    let (a, sc) := sc.addAnimation (level.strategy time)
    let (l, sc) := sc.addLink { target := a }
    (.slot (.link l), sc)

def Plan.install (p : Plan α) (sc : Scene α V) : AnimationId × Scene α V :=
  let (time, sc) := p.drive.install sc
  sc.addAnimation (p.level.strategy time)

/-- Adds the animations of all plans, in their order. -/
def Plan.installAll : List (Plan α) → Scene α V → List AnimationId × Scene α V
  | [], sc => ([], sc)
  | p :: rest, sc =>
    let (a, sc) := p.install sc
    let (segments, sc) := installAll rest sc
    (a :: segments, sc)

/-- Adds a chain of plans. -/
def Plan.installChain (plans : List (Plan α)) (sc : Scene α V) : AnimationId × Scene α V :=
  let (segments, sc) := installAll plans sc
  sc.addAnimation (.chain segments)

end Inbetween
