import Inbetween.World.Routine

/-!
# Acts

What the library does to answer a call. It looks at the world, updates it, and makes further calls
until it has the answer. An act is the tree of these steps, in which a call stands for itself: what
it is answered is settled only when the act is run. So every moment at which a call is made can be
spoken of, also in acts that never come to an end.
-/

namespace Inbetween

structure World (α : Type) (V : Vocabulary) (M : Type) where
  scene : Scene α V := {}
  memory : M
  journal : Array (Event α V) := #[]

namespace World

variable {α : Type} {V : Vocabulary} {M : Type}

def note (w : World α V M) (e : Event α V) : World α V M :=
  { w with journal := w.journal.push e }

def modifyAnimation (w : World α V M) (a : AnimationId) (f : Animation α V → Animation α V) :
    World α V M :=
  { w with scene := w.scene.modifyAnimation a f }

def modifyLink (w : World α V M) (l : LinkId) (f : Link α → Link α) : World α V M :=
  { w with scene := w.scene.modifyLink l f }

@[simp] theorem note_scene (w : World α V M) (e : Event α V) : (w.note e).scene = w.scene := rfl

@[simp] theorem note_memory (w : World α V M) (e : Event α V) : (w.note e).memory = w.memory := rfl

@[simp] theorem note_journal (w : World α V M) (e : Event α V) :
    (w.note e).journal.toList = w.journal.toList ++ [e] := by
  simp [note]

@[simp] theorem modifyAnimation_scene (w : World α V M) (a : AnimationId)
    (f : Animation α V → Animation α V) :
    (w.modifyAnimation a f).scene = w.scene.modifyAnimation a f := rfl

@[simp] theorem modifyAnimation_memory (w : World α V M) (a : AnimationId)
    (f : Animation α V → Animation α V) : (w.modifyAnimation a f).memory = w.memory := rfl

@[simp] theorem modifyAnimation_journal (w : World α V M) (a : AnimationId)
    (f : Animation α V → Animation α V) : (w.modifyAnimation a f).journal = w.journal := rfl

@[simp] theorem modifyLink_scene (w : World α V M) (l : LinkId) (f : Link α → Link α) :
    (w.modifyLink l f).scene = w.scene.modifyLink l f := rfl

@[simp] theorem modifyLink_memory (w : World α V M) (l : LinkId) (f : Link α → Link α) :
    (w.modifyLink l f).memory = w.memory := rfl

@[simp] theorem modifyLink_journal (w : World α V M) (l : LinkId) (f : Link α → Link α) :
    (w.modifyLink l f).journal = w.journal := rfl

end World

inductive Act (α : Type) (V : Vocabulary) (M : Type) (β : Type) where
  | done (b : β)
  | look (next : World α V M → Act α V M β)
  | update (f : World α V M → World α V M) (next : Act α V M β)
  | call (c : Call α V M) (next : c.Answer → Act α V M β)

namespace Act

variable {α : Type} {V : Vocabulary} {M : Type} {β γ : Type}

def bind : Act α V M β → (β → Act α V M γ) → Act α V M γ
  | .done b, f => f b
  | .look next, f => .look fun w => (next w).bind f
  | .update g next, f => .update g (next.bind f)
  | .call c next, f => .call c fun answer => (next answer).bind f

instance : Monad (Act α V M) where
  pure := .done
  bind := bind

theorem bind_done (p : Act α V M β) : p.bind .done = p := by
  induction p with
  | done b => rfl
  | look next ih => exact congrArg look (funext ih)
  | update g next ih => exact congrArg (update g) ih
  | call c next ih => exact congrArg (call c) (funext ih)

theorem bind_assoc {δ : Type} (p : Act α V M β) (f : β → Act α V M γ) (g : γ → Act α V M δ) :
    (p.bind f).bind g = p.bind fun b => (f b).bind g := by
  induction p with
  | done b => rfl
  | look next ih => exact congrArg look (funext ih)
  | update h next ih => exact congrArg (update h) ih
  | call c next ih => exact congrArg (call c) (funext ih)

/-! ## Single steps -/

/-- The act of a single call. -/
def ask (c : Call α V M) : Act α V M c.Answer := .call c .done

/-- What there is to see in the world. -/
def see (f : World α V M → β) : Act α V M β := .look fun w => .done (f w)

def modify (f : World α V M → World α V M) : Act α V M Unit := .update f (.done ())

def note (e : Event α V) : Act α V M Unit := modify (·.note e)

def animation (a : AnimationId) : Act α V M (Animation α V) := see fun w => w.scene.animation a

def modifyAnimation (a : AnimationId) (f : Animation α V → Animation α V) : Act α V M Unit :=
  modify (·.modifyAnimation a f)

def link? (l : LinkId) : Act α V M (Option (Link α)) := see fun w => w.scene.links[l]?

def modifyLink (l : LinkId) (f : Link α → Link α) : Act α V M Unit :=
  modify (·.modifyLink l f)

/-- Extends the scene and passes on what was made. -/
def extend (f : Scene α V → β × Scene α V) : Act α V M β :=
  .look fun w =>
    let (b, scene) := f w.scene
    .update (fun w => { w with scene := scene }) (.done b)

/-- Extends the scene by animations, which are taken down. -/
def grow (f : Scene α V → β × Scene α V) : Act α V M β := do
  let known ← see fun w => w.scene.animations.size
  let b ← extend f
  note (.added known (← see fun w => w.scene.strategiesFrom known))
  return b

/-! ## Running acts -/

/-- Runs an act, its calls being answered by `answer`. There is no result when a call is not
answered. -/
def run (answer : (c : Call α V M) → World α V M → Option (c.Answer × World α V M)) :
    Act α V M β → World α V M → Option (β × World α V M)
  | .done b, w => some (b, w)
  | .look next, w => (next w).run answer w
  | .update f next, w => next.run answer (f w)
  | .call c next, w =>
    match answer c w with
    | none => none
    | some (a, w) => (next a).run answer w

end Act

/-- The act of host code. -/
def Routine.perform {α : Type} {V : Vocabulary} {M : Type} {β : Type} :
    Routine α V M β → Act α V M β
  | .done b => .done b
  | .call c next => .call c fun answer => (next answer).perform

theorem Routine.perform_bind {α : Type} {V : Vocabulary} {M : Type} {β γ : Type}
    (r : Routine α V M β) (f : β → Routine α V M γ) :
    (r.bind f).perform = r.perform.bind fun b => (f b).perform := by
  induction r with
  | done b => rfl
  | call c next ih => exact congrArg (Act.call c) (funext ih)

end Inbetween
