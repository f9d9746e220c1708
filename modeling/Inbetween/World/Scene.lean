import Inbetween.Easing.Mode
import Inbetween.Extend
import Inbetween.Derived
import Inbetween.Sample
import Inbetween.Window

/-!
# Scenes

A scene holds animations and the links by which slots read them. Both are named by their place, so
an animation may be reached along many ways, and may reach itself.

A link is one slot instance. It carries a guard, which is raised while the link is being read, and
an optional pin, which is reported in place of the animation. Links to the same animation share
nothing else.
-/

namespace Inbetween

/-- The names that a host has for its external sources, its on-end hooks and its own strategies.
What stands behind the names is said in one place, by a `Host`. -/
structure Vocabulary where
  Source : Type
  Hook : Type
  Strategy : Type

abbrev AnimationId := Nat

abbrev LinkId := Nat

/-- Where a number comes from whenever it is read. -/
inductive Slot (α : Type) (V : Vocabulary) where
  | constant (v : α)
  | external (source : V.Source)
  | link (l : LinkId)

structure Link (α : Type) where
  target : AnimationId
  busy : Bool := false
  pin : Option α := none
  deriving Repr, DecidableEq

/-- Where an animation gets its time ratio from. -/
inductive TimeSource (α : Type) (V : Vocabulary) where
  | slot (s : Slot α V)
  | pace (p : Pace α)

structure Interpolation (α : Type) (V : Vocabulary) where
  start : Slot α V
  finish : Slot α V
  time : TimeSource α V
  easing : Easing := .linear
  extend : Extend := .constant

/-- How an animation comes to its sample. -/
inductive Strategy (α : Type) (V : Vocabulary) where
  | interpolate (i : Interpolation α V)
  | bezier (points : Bezier α) (time : TimeSource α V) (extend : Extend)
  | wrap (low high source : Slot α V)
  /-- The rate of change since the last reading, and the rate that was last reported. -/
  | rate (source : Slot α V) (last : Reading α) (current : α)
  /-- The first segment that has not ended. -/
  | chain (segments : List AnimationId)
  | custom (strategy : V.Strategy)

structure Animation (α : Type) (V : Vocabulary) where
  strategy : Strategy α V
  hook : Option V.Hook := none
  /-- How many samples of the interpolation are under way. -/
  sampling : Nat := 0
  /-- How many times the host holds the configuration of the interpolation. -/
  held : Nat := 0

structure Scene (α : Type) (V : Vocabulary) where
  animations : Array (Animation α V) := #[]
  links : Array (Link α) := #[]

/-! ## From ratios to samples -/

section Phases

variable {α : Type} [Scalar α]

/-- The sample of an interpolation: held at the start before the window, over at the end after it,
and the eased blend of both in between. -/
def Phase.blend (easing : Easing) (start finish : α) : Phase α → Sample α
  | .before => .value start
  | .past => .ended finish
  | .along t => .value (Curve.lerp start finish (easing.apply t))

/-- The sample of a curve through control points. -/
def Phase.trace (b : Bezier α) : Phase α → Sample α
  | .before => .value b.p0
  | .past => .ended b.p3
  | .along t => .value (b.point t)

end Phases

/-! ## Reconfiguring -/

/-- A change of one field of an interpolation. -/
inductive Change (α : Type) (V : Vocabulary) where
  | start (s : Slot α V)
  | finish (s : Slot α V)
  | time (t : TimeSource α V)
  | easing (mode : Easing)
  | extend (mode : Extend)

def Interpolation.change {α : Type} {V : Vocabulary} (i : Interpolation α V) :
    Change α V → Interpolation α V
  | .start s => { i with start := s }
  | .finish s => { i with finish := s }
  | .time t => { i with time := t }
  | .easing mode => { i with easing := mode }
  | .extend mode => { i with extend := mode }

def Strategy.interpolation? {α : Type} {V : Vocabulary} :
    Strategy α V → Option (Interpolation α V)
  | .interpolate i => some i
  | _ => none

theorem Strategy.eq_of_interpolation? {α : Type} {V : Vocabulary} {s : Strategy α V}
    {i : Interpolation α V} (h : s.interpolation? = some i) : s = .interpolate i := by
  cases s <;> simp_all [interpolation?]

namespace Animation

variable {α : Type} {V : Vocabulary}

def interpolation? (a : Animation α V) : Option (Interpolation α V) := a.strategy.interpolation?

/-- Is the configuration in use, by a sample under way or by the host? -/
def isBorrowed (a : Animation α V) : Bool := a.sampling != 0 || a.held != 0

end Animation

namespace Scene

variable {α : Type} {V : Vocabulary}

/-- The animation of a name. A name that nothing has stands for a chain without segments. -/
def animation (sc : Scene α V) (a : AnimationId) : Animation α V :=
  sc.animations[a]?.getD { strategy := .chain [] }

/-- The link of a name. A name that nothing has stands for an idle link to the first animation. -/
def link (sc : Scene α V) (l : LinkId) : Link α :=
  sc.links[l]?.getD { target := 0 }

def addAnimation (sc : Scene α V) (strategy : Strategy α V) : AnimationId × Scene α V :=
  (sc.animations.size, { sc with animations := sc.animations.push { strategy } })

def addLink (sc : Scene α V) (link : Link α) : LinkId × Scene α V :=
  (sc.links.size, { sc with links := sc.links.push link })

def modifyAnimation (sc : Scene α V) (a : AnimationId) (f : Animation α V → Animation α V) :
    Scene α V :=
  { sc with animations := sc.animations.modify a f }

def modifyLink (sc : Scene α V) (l : LinkId) (f : Link α → Link α) : Scene α V :=
  { sc with links := sc.links.modify l f }

/-- A slot that reads what another one reads. A cloned link has an idle guard of its own and keeps
the pin. -/
def cloneSlot (sc : Scene α V) : Slot α V → Slot α V × Scene α V
  | .link l =>
    let (copy, sc) := sc.addLink { sc.link l with busy := false }
    (.link copy, sc)
  | s => (s, sc)

/-- The strategies of the animations from a name on. -/
def strategiesFrom (sc : Scene α V) (first : AnimationId) : List (Strategy α V) :=
  (sc.animations.extract first).toList.map (·.strategy)

/-! ## What changes leave alone -/

@[simp] theorem link_modifyAnimation (sc : Scene α V) (a : AnimationId)
    (f : Animation α V → Animation α V) (l : LinkId) :
    (sc.modifyAnimation a f).link l = sc.link l := rfl

@[simp] theorem animation_modifyLink (sc : Scene α V) (l : LinkId) (f : Link α → Link α)
    (a : AnimationId) : (sc.modifyLink l f).animation a = sc.animation a := rfl

theorem animation_of_size_le {sc : Scene α V} {a : AnimationId} (h : sc.animations.size ≤ a) :
    sc.animation a = { strategy := .chain [] } := by
  simp [animation, h]

theorem animation_modifyAnimation (sc : Scene α V) (a b : AnimationId)
    (f : Animation α V → Animation α V) :
    (sc.modifyAnimation a f).animation b =
      if a = b ∧ b < sc.animations.size then f (sc.animation b) else sc.animation b := by
  by_cases hab : a = b
  · subst hab
    by_cases ha : a < sc.animations.size
    · simp [animation, modifyAnimation, Array.getElem_modify, ha]
    · simp [animation, modifyAnimation, ha]
  · simp [animation, modifyAnimation, Array.getElem?_modify, hab]

theorem link_modifyLink (sc : Scene α V) (l m : LinkId) (f : Link α → Link α) :
    (sc.modifyLink l f).link m =
      if l = m ∧ m < sc.links.size then f (sc.link m) else sc.link m := by
  by_cases hlm : l = m
  · subst hlm
    by_cases hl : l < sc.links.size
    · simp [link, modifyLink, Array.getElem_modify, hl]
    · simp [link, modifyLink, hl]
  · simp [link, modifyLink, Array.getElem?_modify, hlm]

theorem link_modifyLink_of_ne (sc : Scene α V) {l m : LinkId} (h : l ≠ m) (f : Link α → Link α) :
    (sc.modifyLink l f).link m = sc.link m := by
  simp [link, modifyLink, Array.getElem?_modify, h]

/-- The strategies stay if the change leaves them alone. -/
theorem strategy_modifyAnimation {f : Animation α V → Animation α V}
    (hf : ∀ anim, (f anim).strategy = anim.strategy) (sc : Scene α V) (a b : AnimationId) :
    ((sc.modifyAnimation a f).animation b).strategy = (sc.animation b).strategy := by
  rw [animation_modifyAnimation]
  split
  · exact hf _
  · rfl

theorem hook_modifyAnimation {f : Animation α V → Animation α V}
    (hf : ∀ anim, (f anim).hook = anim.hook) (sc : Scene α V) (a b : AnimationId) :
    ((sc.modifyAnimation a f).animation b).hook = (sc.animation b).hook := by
  rw [animation_modifyAnimation]
  split
  · exact hf _
  · rfl

/-- A configuration that is lent out and given back is as it was. -/
theorem giveBack_lend (animations : Array (Animation α V)) (a : AnimationId) :
    ((animations.modify a fun anim => { anim with sampling := anim.sampling + 1 }).modify a
      fun anim => { anim with sampling := anim.sampling - 1 }) = animations := by
  apply Array.ext_getElem?
  intro b
  rw [Array.getElem?_modify, Array.getElem?_modify]
  split
  · cases animations[b]? <;> rfl
  · rfl

/-- The guard of a link is no part of what the link reads. -/
theorem map_setBusy (sc : Scene α V) (l : LinkId) (busy : Bool) (m : LinkId) :
    (sc.modifyLink l fun link => { link with busy := busy }).links[m]?.map
      (fun k => (k.target, k.pin)) = sc.links[m]?.map fun k => (k.target, k.pin) := by
  rw [modifyLink, Array.getElem?_modify]
  split
  · rw [Option.map_map]
    rfl
  · rfl

/-- If the links of two scenes read the same, each link has its counterpart. -/
theorem link_of_map_eq {sc sc' : Scene α V} {l : LinkId} {here : Link α}
    (h : sc'.links[l]?.map (fun k => (k.target, k.pin)) =
      sc.links[l]?.map fun k => (k.target, k.pin)) (hl : sc.links[l]? = some here) :
    ∃ k, sc'.links[l]? = some k ∧ k.target = here.target ∧ k.pin = here.pin := by
  rw [hl, Option.map_some, Option.map_eq_some_iff] at h
  obtain ⟨k, hk, heq⟩ := h
  exact ⟨k, hk, congrArg Prod.fst heq, congrArg Prod.snd heq⟩

end Scene

end Inbetween
