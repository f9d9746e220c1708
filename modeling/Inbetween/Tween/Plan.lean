import Inbetween.Tween.Spec
import Inbetween.Window

/-!
# Plans

A plan is a description with nothing left open: both values, the curve and the extend mode of every
level, and a resolved window at the end of the row unless a number stands there. Drafting a plan
reports the windows and hand-offs that it settled, also when a later step fails.

The start and the end of the first level are its own or those it continues from; deeper levels run
from 0 to 1 unless they say otherwise.
-/

namespace Inbetween

/-- The modes of levels that do not name one. -/
structure Config where
  extend : Extend := .constant
  easing : Easing := .linear
  deriving DecidableEq, Repr

/-- A settled level. -/
structure Level (α : Type) where
  start : α
  finish : α
  easing : Easing
  extend : Extend
  deriving DecidableEq, Repr

/-- Where the time ratio of a settled level comes from. -/
inductive Drive (α : Type) where
  | window (w : Window α)
  | fixed (ratio : α)
  | tween (level : Level α) (drive : Drive α)
  deriving DecidableEq, Repr

structure Plan (α : Type) where
  level : Level α
  drive : Drive α
  deriving DecidableEq, Repr

/-- What was settled on the way to a plan. -/
inductive Note (α : Type) where
  | windowResolved (opens closes : α)
  | handedOff (segment : Nat) (finish : α) (closes : Option α)
  deriving DecidableEq, Repr

/-- An outcome, and the notes that were taken until it stood. -/
structure Draft (α β : Type) where
  notes : List (Note α)
  outcome : Except (Error α) β

namespace Draft

variable {α β γ : Type}

def map (f : β → γ) (d : Draft α β) : Draft α γ := ⟨d.notes, d.outcome.map f⟩

end Draft

variable {α : Type} [Scalar α]

/-! ## Levels -/

/-- A level that runs between the given values, with the modes of the configuration where it names
none. -/
def Settings.level (s : Settings α) (cfg : Config) (start finish : α) : Level α :=
  { start := start
    finish := finish
    easing := s.easing.getD cfg.easing
    extend := s.extend.getD cfg.extend }

/-- A level below the first one. -/
def Settings.innerLevel (s : Settings α) (cfg : Config) : Level α :=
  s.level cfg (s.start.getD 0.0) (s.finish.getD 1.0)

/-- The window of a level that follows the clock. The bounds are noted before they are checked. -/
def Settings.window (s : Settings α) (clock : Clock α) : Draft α (Window α) :=
  let bounds := Window.bounds? s.opens s.closes s.lasts clock
  ⟨(bounds.map fun (o, c) => Note.windowResolved o c).toList,
    Window.resolve s.opens s.closes s.lasts clock⟩

def Timing.drive (cfg : Config) (clock : Clock α) : Settings α → Timing α → Draft α (Drive α)
  | s, .clock => (s.window clock).map .window
  | _, .fixed ratio => ⟨[], .ok (.fixed ratio)⟩
  | _, .tween inner timing => (timing.drive cfg clock inner).map (.tween (inner.innerLevel cfg))

/-! ## Tweens -/

/-- The plan of a description whose missing start and end are the given ones. -/
def Spec.plan (s : Spec α) (cfg : Config) (clock : Clock α) (start finish : Option α) :
    Draft α (Plan α) :=
  match s.settings.start <|> start, s.settings.finish <|> finish with
  | none, _ => ⟨[], .error (.missingField "start")⟩
  | some _, none => ⟨[], .error (.missingField "end")⟩
  | some a, some b =>
    (s.timing.drive cfg clock s.settings).map fun drive => ⟨s.settings.level cfg a b, drive⟩

/-- When the window of a plan that follows the clock closes. -/
def Plan.closes (p : Plan α) : Option α :=
  match p.drive with
  | .window w => some w.closes
  | _ => none

/-! ## Chains -/

/-- The description of a segment that opens when the one before it closes, unless it says when. -/
def Spec.opening (s : Spec α) (opens : Option α) : Spec α :=
  { s with settings.opens := s.settings.opens <|> opens }

/-- The plans of the segments from number `index` on. Each one hands its end value and the closing
of its window to the next; a segment that does not follow the clock hands on no time. -/
def ChainSpec.plansFrom (cfg : Config) (clock : Clock α) :
    (index : Nat) → (start opens : Option α) → ChainSpec α → Draft α (List (Plan α))
  | _, _, _, [] => ⟨[], .ok []⟩
  | index, start, opens, segment :: rest =>
    let head := (segment.opening opens).plan cfg clock start none
    match head.outcome with
    | .error e => ⟨head.notes, .error e⟩
    | .ok plan =>
      let handOff := Note.handedOff index plan.level.finish plan.closes
      let tail := plansFrom cfg clock (index + 1) (some plan.level.finish) plan.closes rest
      ⟨head.notes ++ handOff :: tail.notes, tail.outcome.map (plan :: ·)⟩

/-- The plans of all segments. The first one continues from the current value. -/
def ChainSpec.plans (c : ChainSpec α) (cfg : Config) (clock : Clock α) (current : Option α) :
    Draft α (List (Plan α)) :=
  match c with
  | [] => ⟨[], .error .emptyChain⟩
  | _ => plansFrom cfg clock 0 current none c

end Inbetween
