import Inbetween.Proofs.Paths
import Mathlib.Data.Set.Basic
import Mathlib.Logic.Relation

/-!
# Renderings

What the animations of a scene show at one clock time, if none of them refers to itself. A rendering
is a value with the rates that are renewed on the way to it. It is computed from the scene as it is
found. A rate that is read twice is computed twice, both times from what it remembers at first, so
the order of the reads has no part in it.
-/

namespace Inbetween

variable {α : Type} {V : Vocabulary} {β γ : Type}

namespace Scene

/-! ## Scenes without cycles -/

/-- One animation refers to the other one: by a slot that reads it through a link that is not pinned,
or as a segment. -/
inductive Needs (sc : Scene α V) (a b : AnimationId) : Prop
  | slot {part : Part} {l : LinkId} {here : Link α} :
      (sc.animation a).strategy.slotAt? part = some (.link l) → sc.Unsettled l here →
      here.target = b → sc.Needs a b
  | segment {position : Nat} :
      (sc.animation a).strategy.segmentAt? position = some b → sc.Needs a b

/-- No animation refers to itself, be it through others. -/
def Acyclic (sc : Scene α V) : Prop := ∀ a, ¬ Relation.TransGen sc.Needs a a

/-- What an animation refers to, be it through others. -/
def below (sc : Scene α V) (a : AnimationId) : Set AnimationId :=
  {b | Relation.TransGen sc.Needs a b}

variable {sc : Scene α V} {a b : AnimationId}

theorem Needs.lt_size (h : sc.Needs a b) : a < sc.animations.size := by
  by_contra hsize
  have hchain := animation_of_size_le (Nat.le_of_not_lt hsize)
  rcases h with ⟨hslot, -, -⟩ | hsegment
  · rw [hchain] at hslot
    cases hslot
  · simp [hchain, Strategy.segmentAt?] at hsegment

theorem Needs.below_subset (h : sc.Needs a b) : sc.below b ⊆ sc.below a := by
  intro c hc
  exact Relation.TransGen.head h hc

open Classical in
/-- The animations of the scene that an animation refers to, be it through others. -/
noncomputable def reached (sc : Scene α V) (a : AnimationId) : Finset AnimationId :=
  (Finset.range sc.animations.size).filter (· ∈ sc.below a)

theorem mem_reached : b ∈ sc.reached a ↔ b < sc.animations.size ∧ b ∈ sc.below a := by
  simp only [reached, Finset.mem_filter, Finset.mem_range]

/-- How many references can be followed from an animation, one after the other, at most. -/
noncomputable def height (sc : Scene α V) (a : AnimationId) : Nat :=
  if a < sc.animations.size then (sc.reached a).card + 1 else 0

theorem Acyclic.height_lt (acyclic : sc.Acyclic) (h : sc.Needs a b) :
    sc.height b < sc.height a := by
  rw [height, height, if_pos h.lt_size]
  split
  · rename_i hb
    apply Nat.succ_lt_succ
    apply Finset.card_lt_card
    have hsub : sc.reached b ⊆ sc.reached a := by
      intro c hc
      obtain ⟨hsize, hc⟩ := mem_reached.mp hc
      exact mem_reached.mpr ⟨hsize, h.below_subset hc⟩
    refine (Finset.ssubset_iff_of_subset hsub).mpr ⟨b, ?_, ?_⟩
    · exact mem_reached.mpr ⟨hb, Relation.TransGen.single h⟩
    · intro hself
      exact acyclic b (mem_reached.mp hself).2
  · exact Nat.succ_pos _

theorem Acyclic.height_le (acyclic : sc.Acyclic) (a : AnimationId) :
    sc.height a ≤ sc.animations.size := by
  rw [height]
  split
  · rename_i ha
    rw [Nat.succ_le_iff]
    have hsub : sc.reached a ⊆ Finset.range sc.animations.size := by
      intro b hb
      exact Finset.mem_range.mpr (mem_reached.mp hb).1
    have hlt : sc.reached a ⊂ Finset.range sc.animations.size := by
      refine (Finset.ssubset_iff_of_subset hsub).mpr ⟨a, Finset.mem_range.mpr ha, ?_⟩
      intro hself
      exact acyclic a (mem_reached.mp hself).2
    exact (Finset.card_lt_card hlt).trans_eq (Finset.card_range _)
  · exact Nat.zero_le _

end Scene

/-! ## Rendering -/

/-- A value, and the rates that are renewed on the way to it. -/
structure Rendered (β : Type) where
  value : β
  renewed : Set AnimationId := ∅

namespace Rendered

instance : Monad Rendered where
  pure b := ⟨b, ∅⟩
  bind r f := ⟨(f r.value).value, r.renewed ∪ (f r.value).renewed⟩

@[simp] theorem pure_value (b : β) : (pure b : Rendered β).value = b := rfl

@[simp] theorem pure_renewed (b : β) : (pure b : Rendered β).renewed = ∅ := rfl

@[simp] theorem bind_value (r : Rendered β) (f : β → Rendered γ) :
    (r >>= f).value = (f r.value).value := rfl

@[simp] theorem bind_renewed (r : Rendered β) (f : β → Rendered γ) :
    (r >>= f).renewed = r.renewed ∪ (f r.value).renewed := rfl

theorem bind_pure (r : Rendered β) : (r >>= fun b => pure b) = r := by
  obtain ⟨b, renewed⟩ := r
  exact congrArg (Rendered.mk b) (Set.union_empty renewed)

end Rendered

namespace Scene

variable [Scalar α] (sc : Scene α V) (code : Computation α V) (clock : Clock α)

/-- The value of an animation whose sample is taken through a link. -/
def conclude (a : AnimationId) (l : LinkId) : Sample α → α
  | .value v => v
  | .ended v =>
    match (sc.animation a).hook with
    | none => v
    | some hook => code.hook hook l v

section From

/-! ### From the renderings of other animations -/

variable (f : AnimationId → Rendered (Sample α))

def slotFrom : Slot α V → Rendered α
  | .constant v => return v
  | .external source => return code.source source
  | .link l =>
    match sc.links[l]? with
    | none => return 0.0
    | some here =>
      match here.pin with
      | some v => return v
      | none => return sc.conclude code here.target l (← f here.target)

def ratioFrom : TimeSource α V → Rendered α
  | .slot s => slotFrom sc code f s
  | .pace p => return p.ratio clock

def chainFrom : List AnimationId → Rendered (Sample α)
  | [] => return .value 0.0
  | [last] => f last
  | segment :: rest => do
    let s ← f segment
    if s.isEnded then chainFrom rest else return s

def strategyFrom (a : AnimationId) : Strategy α V → Rendered (Sample α)
  | .interpolate i => do
    let t ← ratioFrom sc code clock f i.time
    let start ← slotFrom sc code f i.start
    let finish ← slotFrom sc code f i.finish
    return (i.extend.normalize t).blend i.easing start finish
  | .bezier points time extend => do
    let t ← ratioFrom sc code clock f time
    return (extend.normalize t).trace points
  | .wrap low high source => do
    let x ← slotFrom sc code f low
    let y ← slotFrom sc code f high
    let v ← slotFrom sc code f source
    return .value (wrapBetween x y v)
  | .rate source last current =>
    if clock.time == last.time then return .value current
    else do
      let v ← slotFrom sc code f source
      ⟨.value (last.rate ⟨clock.time, v⟩), {a}⟩
  | .chain segments => chainFrom f segments
  | .custom s => return code.strategy s clock

end From

/-- The rendering of an animation, as far as its references need not be followed further than the
given number of times. -/
def renderTo : Nat → AnimationId → Rendered (Sample α)
  | 0, _ => return .value 0.0
  | n + 1, a => strategyFrom sc code clock (renderTo n) a (sc.animation a).strategy

/-- The rendering of an animation. No reference path is longer than there are animations. -/
def render (a : AnimationId) : Rendered (Sample α) :=
  sc.renderTo code clock (sc.animations.size + 1) a

/-- What an animation is once it is renewed. Only a rate that was read at another time changes. -/
def renewal (a : AnimationId) : Strategy α V :=
  match (sc.animation a).strategy with
  | .rate source last current =>
    if clock.time == last.time then .rate source last current
    else
      let next := ⟨clock.time, (slotFrom sc code (sc.render code clock) source).value⟩
      .rate source next (last.rate next)
  | s => s

variable {sc code clock}

section Congr

variable {f g : AnimationId → Rendered (Sample α)} {a : AnimationId}

theorem slotFrom_congr {s : Slot α V}
    (h : ∀ l here, s = .link l → sc.Unsettled l here → f here.target = g here.target) :
    slotFrom sc code f s = slotFrom sc code g s := by
  cases s with
  | link l =>
      simp only [slotFrom]
      split
      · rfl
      · split
        · rfl
        · rw [h l _ rfl ⟨‹_›, ‹_›⟩]
  | _ => rfl

theorem chainFrom_cons_cons (segment next : AnimationId) (rest : List AnimationId) :
    chainFrom f (segment :: next :: rest) = do
      let s ← f segment
      if s.isEnded then chainFrom f (next :: rest) else return s := rfl

theorem chainFrom_congr {segments : List AnimationId} (h : ∀ s ∈ segments, f s = g s) :
    chainFrom f segments = chainFrom g segments := by
  induction segments with
  | nil => rfl
  | cons segment rest ih =>
      have hrest := ih fun s hs => h s (List.mem_cons_of_mem _ hs)
      cases rest with
      | nil => exact h segment List.mem_cons_self
      | cons next rest =>
          rw [chainFrom_cons_cons, chainFrom_cons_cons, h segment List.mem_cons_self, hrest]

/-- Only the renderings that an animation needs have a part in its own. -/
theorem strategyFrom_congr (h : ∀ b, sc.Needs a b → f b = g b) {s : Strategy α V}
    (own : (sc.animation a).strategy = s) :
    strategyFrom sc code clock f a s = strategyFrom sc code clock g a s := by
  have hslot : ∀ part slot, s.slotAt? part = some slot →
      slotFrom sc code f slot = slotFrom sc code g slot := by
    rintro part slot hslot
    refine slotFrom_congr ?_
    rintro l here rfl hhere
    exact h _ (.slot (own ▸ hslot) hhere rfl)
  have hratio : ∀ time : TimeSource α V, (∀ slot, time = .slot slot → s.slotAt? .time = some slot) →
      ratioFrom sc code clock f time = ratioFrom sc code clock g time := by
    intro time htime
    cases time with
    | slot slot => exact hslot .time slot (htime slot rfl)
    | pace p => rfl
  cases s with
  | interpolate i =>
      have htime := hratio i.time fun slot hs => by rw [Strategy.slotAt?, hs]
      simp only [strategyFrom, htime, hslot .start _ rfl, hslot .finish _ rfl]
  | bezier points time extend =>
      have htime := hratio time fun slot hs => by rw [hs, Strategy.slotAt?]
      simp only [strategyFrom, htime]
  | wrap low high source =>
      simp only [strategyFrom, hslot .low _ rfl, hslot .high _ rfl, hslot .source _ rfl]
  | rate source last current => simp only [strategyFrom, hslot .source _ rfl]
  | chain segments =>
      refine chainFrom_congr ?_
      intro segment hsegment
      obtain ⟨position, hposition⟩ := List.mem_iff_getElem?.mp hsegment
      have hsegment : (Strategy.chain segments : Strategy α V).segmentAt? position = some segment :=
        hposition
      exact h segment (.segment (own ▸ hsegment))
  | custom s => rfl

end Congr

/-- Beyond its height, a rendering does not depend on how far references are followed. -/
theorem Acyclic.renderTo_eq (acyclic : sc.Acyclic) {n m : Nat} {a : AnimationId}
    (hn : sc.height a < n) (hm : sc.height a < m) :
    sc.renderTo code clock n a = sc.renderTo code clock m a := by
  induction n generalizing m a with
  | zero => exact absurd hn (Nat.not_lt_zero _)
  | succ n ih =>
      cases m with
      | zero => exact absurd hm (Nat.not_lt_zero _)
      | succ m =>
          refine strategyFrom_congr ?_ rfl
          intro b hb
          have hlt := acyclic.height_lt hb
          exact ih (by omega) (by omega)

/-- A rendering comes from the renderings that it needs. -/
theorem Acyclic.render_eq (acyclic : sc.Acyclic) (a : AnimationId) :
    sc.render code clock a =
      strategyFrom sc code clock (sc.render code clock) a (sc.animation a).strategy := by
  refine strategyFrom_congr ?_ rfl
  intro b hb
  have hlt := acyclic.height_lt hb
  have hle := acyclic.height_le a
  exact acyclic.renderTo_eq (by omega) (by omega)

end Scene

end Inbetween
