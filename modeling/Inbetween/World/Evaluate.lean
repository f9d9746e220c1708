import Inbetween.World.Act
import Inbetween.World.Install

/-!
# Evaluation

One answer to a call may need answers to further calls: an interpolation reads its slots, a link
samples its animation, a chain samples its segments, and host code calls whatever it likes. Each
rule below is an act that leaves these calls open; `respond` ties the knot up to a depth.

A link that is read while its guard is up reports zero and lowers the guard, although the outer
read is still under way. So one cycle through a link is cut at each second visit.

A name that nothing has is harmless: such a link reads as zero, and there is nothing about such an
animation that could be held or changed.
-/

namespace Inbetween

namespace Evaluate

open Act

variable {α : Type} [Scalar α] {V : Vocabulary} {M : Type}

/-! ## Samples -/

def ratio (clock : Clock α) : TimeSource α V → Act α V M α
  | .slot s => ask (.read s clock)
  | .pace p => return p.ratio clock

/-- The sample of the first segment that has not ended, or else of the last one. Segments are
sampled directly, so their own hooks do not run. -/
def chain (clock : Clock α) : List AnimationId → Act α V M (Sample α)
  | [] => return .value 0.0
  | [last] => ask (.sample last clock)
  | segment :: rest => do
    let s ← ask (.sample segment clock)
    if s.isEnded then chain clock rest else return s

/-- Lends out the configuration of an animation. -/
def borrowing {β : Type} (a : AnimationId) (body : Act α V M β) : Act α V M β := do
  modifyAnimation a fun anim => { anim with sampling := anim.sampling + 1 }
  let b ← body
  modifyAnimation a fun anim => { anim with sampling := anim.sampling - 1 }
  return b

def interpolation (clock : Clock α) (i : Interpolation α V) : Act α V M (Sample α) := do
  let t ← ratio clock i.time
  let start ← ask (.read i.start clock)
  let finish ← ask (.read i.finish clock)
  return (i.extend.normalize t).blend i.easing start finish

variable (host : Host α V M)

/-- The sample of an animation by its strategy. The order of the reads is part of the rule. An
interpolation cannot be changed while its slots are being read. -/
def strategy (a : AnimationId) (clock : Clock α) : Strategy α V → Act α V M (Sample α)
  | .interpolate i => borrowing a (interpolation clock i)
  | .bezier points time extend => do
    let t ← ratio clock time
    return (extend.normalize t).trace points
  | .wrap low high source => do
    let a ← ask (.read low clock)
    let b ← ask (.read high clock)
    let v ← ask (.read source clock)
    return .value (wrapBetween a b v)
  | .rate source last current =>
    if clock.time == last.time then return .value current
    else do
      let v ← ask (.read source clock)
      let next := ⟨clock.time, v⟩
      let rate := last.rate next
      modifyAnimation a fun anim => { anim with strategy := .rate source next rate }
      return .value rate
  | .chain segments => chain clock segments
  | .custom s => return host.strategy s clock

def sample (through : Option LinkId) (a : AnimationId) (clock : Clock α) :
    Act α V M (Sample α) := do
  note (.sampleBegan a through)
  let s ← strategy host a clock (← animation a).strategy
  note (.sampleFinished a through s)
  return s

/-- The value of an animation as read through a link. Once it is over, the hook that is installed at
that moment gives the value. -/
def evaluateIn (a : AnimationId) (l : LinkId) (clock : Clock α) : Act α V M α := do
  match ← sample host (some l) a clock with
  | .value v => return v
  | .ended v =>
    match (← animation a).hook with
    | none => return v
    | some hook => do
      note (.hookRun hook l v)
      (host.hook hook l v).perform

/-! ## Reads -/

def readLink (l : LinkId) (clock : Clock α) : Act α V M α := do
  match ← link? l with
  | none => return 0.0
  | some here =>
    match here.pin with
    | some v => return v
    | none =>
      if here.busy then
        note (.cycleMet l)
        modifyLink l fun link => { link with busy := false }
        return 0.0
      else
        note (.readBegan l)
        modifyLink l fun link => { link with busy := true }
        let v ← evaluateIn host here.target l clock
        modifyLink l fun link => { link with busy := false }
        note (.readFinished l v)
        return v

def read (clock : Clock α) : Slot α V → Act α V M α
  | .constant v => return v
  | .external source => do
    note (.sourceRead source)
    (host.source source).perform
  | .link l => readLink host l clock

/-! ## Changes -/

def hold (a : AnimationId) : Act α V M Unit := do
  if (← animation a).interpolation?.isSome then
    modifyAnimation a fun anim => { anim with held := anim.held + 1 }
    note (.held a)

def release (a : AnimationId) : Act α V M Unit := do
  if (← animation a).interpolation?.isSome then
    modifyAnimation a fun anim => { anim with held := anim.held - 1 }
    note (.released a)

/-- Changes one field of an interpolation, unless its configuration is lent out. -/
def reconfigure (a : AnimationId) (change : Change α V) : Act α V M Reconfigured := do
  let anim ← animation a
  match anim.strategy with
  | .interpolate i =>
    if anim.isBorrowed then return .busy
    else
      modifyAnimation a fun anim => { anim with strategy := .interpolate (i.change change) }
      note (.reconfigured a change)
      return .done
  | _ => return .notInterpolation

def setHook (a : AnimationId) (hook : Option V.Hook) : Act α V M Unit := do
  if a < (← see fun w => w.scene.animations.size) then
    modifyAnimation a fun anim => { anim with hook := hook }
    note (.hookSet a hook)

def setPin (l : LinkId) (pin : Option α) : Act α V M Unit := do
  if (← link? l).isSome then
    modifyLink l fun link => { link with pin := pin }
    note (.pinSet l pin)

/-- Takes down the notes of a draft and adds what it settled on to the scene. -/
def install {β : Type} (draft : Draft α β) (add : β → Scene α V → AnimationId × Scene α V) :
    Act α V M (Except (Error α) AnimationId) := do
  draft.notes.forM fun n => note (.noted n)
  match draft.outcome with
  | .error e => return .error e
  | .ok b => return .ok (← grow (add b))

/-! ## Calls -/

/-- The rule by which a call is answered. -/
def answer : (c : Call α V M) → Act α V M c.Answer
  | .read slot clock => read host clock slot
  | .sample a clock => sample host none a clock
  | .evaluateIn a l clock => evaluateIn host a l clock
  | .hold a => hold a
  | .release a => release a
  | .reconfigure a change => reconfigure a change
  | .setHook a hook => setHook a hook
  | .setPin l pin => setPin l pin
  | .add strategy => grow fun sc => sc.addAnimation strategy
  | .addLink a => extend fun sc => sc.addLink { target := a }
  | .cloneSlot slot => extend fun sc => sc.cloneSlot slot
  | .build spec cfg clock current => install (spec.plan cfg clock current none) Plan.install
  | .buildChain spec cfg clock current => install (spec.plans cfg clock current) Plan.installChain
  | .scene => see (·.scene)
  | .recall => see (·.memory)
  | .remember memory => modify fun w => { w with memory := memory }

end Evaluate

/-- The answer to a call, with calls nested up to the given depth. -/
def respond {α : Type} [Scalar α] {V : Vocabulary} {M : Type} (host : Host α V M) :
    (depth : Nat) → (c : Call α V M) → World α V M → Option (c.Answer × World α V M)
  | 0, _, _ => none
  | depth + 1, c, w => (Evaluate.answer host c).run (respond host depth) w

/-- Runs a routine of the host in a world. -/
def Host.run {α : Type} [Scalar α] {V : Vocabulary} {M : Type} {β : Type} (host : Host α V M)
    (depth : Nat) (r : Routine α V M β) (w : World α V M) : Option (β × World α V M) :=
  r.perform.run (respond host depth) w

end Inbetween
