import Inbetween.World.Journal

/-!
# Host code

External sources and on-end hooks are code of the host, and they may call back into the library
while it is in the middle of reading. Such code is a tree of calls: it is done, or it makes a call
and goes on with the answer. A host says which tree stands behind each source and each hook; it
keeps what it remembers between them in its memory.
-/

namespace Inbetween

/-- What became of a change of configuration. -/
inductive Reconfigured where
  | done
  /-- The configuration is in use and stays as it is. -/
  | busy
  | notInterpolation
  deriving DecidableEq, Repr

inductive Call (α : Type) (V : Vocabulary) (M : Type) where
  | read (slot : Slot α V) (clock : Clock α)
  | sample (a : AnimationId) (clock : Clock α)
  /-- Evaluates an animation as if it were read through a link. -/
  | evaluateIn (a : AnimationId) (l : LinkId) (clock : Clock α)
  /-- Holds the configuration of an animation until it is released. -/
  | hold (a : AnimationId)
  | release (a : AnimationId)
  | reconfigure (a : AnimationId) (change : Change α V)
  | setHook (a : AnimationId) (hook : Option V.Hook)
  | setPin (l : LinkId) (pin : Option α)
  | add (strategy : Strategy α V)
  | addLink (a : AnimationId)
  | cloneSlot (slot : Slot α V)
  | build (spec : Spec α) (cfg : Config) (clock : Clock α) (current : Option α)
  | buildChain (spec : ChainSpec α) (cfg : Config) (clock : Clock α) (current : Option α)
  | scene
  | recall
  | remember (memory : M)

/-- The type of the answer to a call. -/
@[reducible] def Call.Answer {α : Type} {V : Vocabulary} {M : Type} : Call α V M → Type
  | .read _ _ => α
  | .sample _ _ => Sample α
  | .evaluateIn _ _ _ => α
  | .hold _ => Unit
  | .release _ => Unit
  | .reconfigure _ _ => Reconfigured
  | .setHook _ _ => Unit
  | .setPin _ _ => Unit
  | .add _ => AnimationId
  | .addLink _ => LinkId
  | .cloneSlot _ => Slot α V
  | .build _ _ _ _ => Except (Error α) AnimationId
  | .buildChain _ _ _ _ => Except (Error α) AnimationId
  | .scene => Scene α V
  | .recall => M
  | .remember _ => Unit

inductive Routine (α : Type) (V : Vocabulary) (M : Type) (β : Type) where
  | done (b : β)
  | call (c : Call α V M) (next : c.Answer → Routine α V M β)

namespace Routine

variable {α : Type} {V : Vocabulary} {M : Type} {β γ : Type}

def bind : Routine α V M β → (β → Routine α V M γ) → Routine α V M γ
  | .done b, f => f b
  | .call c next, f => .call c fun answer => (next answer).bind f

instance : Monad (Routine α V M) where
  pure := .done
  bind := bind

theorem bind_done (r : Routine α V M β) : r.bind .done = r := by
  induction r with
  | done b => rfl
  | call c next ih => exact congrArg (call c) (funext ih)

theorem bind_assoc {δ : Type} (r : Routine α V M β) (f : β → Routine α V M γ)
    (g : γ → Routine α V M δ) : (r.bind f).bind g = r.bind fun b => (f b).bind g := by
  induction r with
  | done b => rfl
  | call c next ih => exact congrArg (call c) (funext ih)

/-- The routine of a single call. -/
def ask (c : Call α V M) : Routine α V M c.Answer := .call c .done

/-- The value of an animation on its own. On-end hooks run only for reads through a link. -/
def evaluate (a : AnimationId) (clock : Clock α) : Routine α V M α := do
  return (← ask (.sample a clock)).get

/-- Adds the rate of change of a source. The first reading is taken at once. -/
def addRate [Scalar α] (source : Slot α V) (clock : Clock α) : Routine α V M AnimationId := do
  let v ← ask (.read source clock)
  ask (.add (.rate source ⟨clock.time, v⟩ 0.0))

/-- Runs a routine while the configuration of an animation is held. -/
def holding (a : AnimationId) (r : Routine α V M β) : Routine α V M β := do
  ask (.hold a)
  let b ← r
  ask (.release a)
  return b

end Routine

/-- What the names of a host stand for. -/
structure Host (α : Type) (V : Vocabulary) (M : Type) where
  source : V.Source → Routine α V M α
  hook : V.Hook → LinkId → α → Routine α V M α
  strategy : V.Strategy → Clock α → Sample α

end Inbetween
