import Inbetween.Proofs.References
import Inbetween.World.Journal
import Mathlib.Data.Finset.Card
import Mathlib.Data.Finset.SDiff
import Mathlib.Data.Finset.Range

/-!
# Evaluation along paths

An evaluator without guards. It carries the links that are being read, and reads zero, with a
warning, exactly when a link comes up that is among them. Host code is taken for what it computes.
The evaluator always comes to an end: a link is added to the path before an animation is evaluated,
and between two links only segments are sampled, which are older than their chain.
-/

namespace Inbetween

variable {α : Type} {V : Vocabulary}

/-- A value with the events by which it came about. -/
structure Traced (α : Type) (V : Vocabulary) (β : Type) where
  value : β
  events : List (Event α V) := []

namespace Traced

variable {β γ : Type}

def bind (t : Traced α V β) (f : β → Traced α V γ) : Traced α V γ :=
  ⟨(f t.value).value, t.events ++ (f t.value).events⟩

instance : Monad (Traced α V) where
  pure b := ⟨b, []⟩
  bind := bind

def note (e : Event α V) : Traced α V Unit := ⟨(), [e]⟩

@[simp] theorem pure_value (b : β) : (pure b : Traced α V β).value = b := rfl

@[simp] theorem pure_events (b : β) : (pure b : Traced α V β).events = [] := rfl

@[simp] theorem bind_value (t : Traced α V β) (f : β → Traced α V γ) :
    (t >>= f).value = (f t.value).value := rfl

@[simp] theorem bind_events (t : Traced α V β) (f : β → Traced α V γ) :
    (t >>= f).events = t.events ++ (f t.value).events := rfl

@[simp] theorem note_events (e : Event α V) : (note e).events = [e] := rfl

end Traced

/-- What pure host code computes. -/
structure Computation (α : Type) (V : Vocabulary) where
  source : V.Source → α
  hook : V.Hook → LinkId → α → α
  strategy : V.Strategy → Clock α → Sample α

namespace Scene

open Traced

variable [Scalar α] (sc : Scene α V) (steady : sc.Steady) (code : Computation α V)
  (clock : Clock α)

/-- How many links can still be added to a path. -/
def room (path : Finset LinkId) : Nat := (Finset.range sc.links.size \ path).card

omit [Scalar α] in
theorem room_insert {path : Finset LinkId} {l : LinkId} {here : Link α}
    (found : sc.links[l]? = some here) (fresh : l ∉ path) :
    sc.room (insert l path) < sc.room path := by
  have hl : l < sc.links.size := (Array.getElem?_eq_some_iff.mp found).1
  rw [room, room, Finset.sdiff_insert]
  exact Finset.card_erase_lt_of_mem (Finset.mem_sdiff.mpr ⟨Finset.mem_range.mpr hl, fresh⟩)

-- A longer path leaves less room. On the same path the animations get older, and for one animation
-- the last two numbers order its evaluation, its sample, its strategy and the rest of its segments.
mutual

def readAlong (path : Finset LinkId) : Slot α V → Traced α V α
  | .constant v => return v
  | .external source => do
    note (.sourceRead source)
    return code.source source
  | .link l =>
    match found : sc.links[l]? with
    | none => return 0.0
    | some here =>
      match here.pin with
      | some v => return v
      | none =>
        if fresh : l ∈ path then do
          note (.cycleMet l)
          return 0.0
        else
          have := sc.room_insert found fresh
          do
          note (.readBegan l)
          let v ← evaluateAlong (insert l path) here.target l
          note (.readFinished l v)
          return v
termination_by (sc.room path, 0, 0, 0)

def ratioAlong (path : Finset LinkId) : TimeSource α V → Traced α V α
  | .slot s => readAlong path s
  | .pace p => return p.ratio clock
termination_by (sc.room path, 0, 0, 1)

def evaluateAlong (path : Finset LinkId) (a : AnimationId) (l : LinkId) : Traced α V α := do
  match ← sampleAlong path a (some l) with
  | .value v => return v
  | .ended v =>
    match (sc.animation a).hook with
    | none => return v
    | some hook => do
      note (.hookRun hook l v)
      return code.hook hook l v
termination_by (sc.room path, a + 1, 3, 0)

def sampleAlong (path : Finset LinkId) (a : AnimationId) (through : Option LinkId) :
    Traced α V (Sample α) := do
  note (.sampleBegan a through)
  let s ← strategyAlong path a (sc.animation a).strategy rfl
  note (.sampleFinished a through s)
  return s
termination_by (sc.room path, a + 1, 2, 0)

def strategyAlong (path : Finset LinkId) (a : AnimationId) (strategy : Strategy α V)
    (own : (sc.animation a).strategy = strategy) : Traced α V (Sample α) :=
  match strategy with
  | .interpolate i => do
    let t ← ratioAlong path i.time
    let start ← readAlong path i.start
    let finish ← readAlong path i.finish
    return (i.extend.normalize t).blend i.easing start finish
  | .bezier points time extend => do
    let t ← ratioAlong path time
    return (extend.normalize t).trace points
  | .wrap low high source => do
    let x ← readAlong path low
    let y ← readAlong path high
    let v ← readAlong path source
    return .value (wrapBetween x y v)
  | .rate source last current => (steady.noRate a source last current own).elim
  | .chain segments => chainAlong path a segments (steady.older a segments own)
  | .custom s => return code.strategy s clock
termination_by (sc.room path, a + 1, 1, 0)

def chainAlong (path : Finset LinkId) (a : AnimationId) (segments : List AnimationId)
    (older : ∀ s ∈ segments, s < a) : Traced α V (Sample α) :=
  match segments with
  | [] => return .value 0.0
  | [last] =>
    have : last + 1 < a + 1 := Nat.succ_lt_succ (older last List.mem_cons_self)
    sampleAlong path last none
  | segment :: next :: rest => do
    have : segment + 1 < a + 1 := Nat.succ_lt_succ (older segment List.mem_cons_self)
    let s ← sampleAlong path segment none
    if s.isEnded then
      chainAlong path a (next :: rest) fun s hs => older s (List.mem_cons_of_mem _ hs)
    else return s
termination_by (sc.room path, a + 1, 0, segments.length)

end

end Scene

end Inbetween
