import Inbetween.World.Install

/-!
# Growing scenes

Whatever is made, a scene only grows: new animations and links come behind the ones that are there.
New animations have no hook and nothing to do with reads under way, and new links are idle.
-/

namespace Inbetween

variable {α : Type} {V : Vocabulary}

namespace Scene

/-- The second scene is the first one with new animations of the given strategies, and perhaps with
new links. -/
structure Grows (sc : Scene α V) (strategies : List (Strategy α V)) (sc' : Scene α V) : Prop where
  animations : sc'.animations = sc.animations ++ (strategies.map ({ strategy := · })).toArray
  links : ∃ links : List (Link α), sc'.links = sc.links ++ links.toArray ∧
    ∀ link ∈ links, link.busy = false

namespace Grows

variable {sc sc' sc'' : Scene α V} {ss ss' : List (Strategy α V)}

theorem refl (sc : Scene α V) : sc.Grows [] sc :=
  ⟨by simp, [], by simp, by simp⟩

theorem trans (h : sc.Grows ss sc') (h' : sc'.Grows ss' sc'') : sc.Grows (ss ++ ss') sc'' := by
  obtain ⟨ls, hl, hidle⟩ := h.links
  obtain ⟨ls', hl', hidle'⟩ := h'.links
  refine ⟨by simp [h'.animations, h.animations], ls ++ ls', by simp [hl', hl], ?_⟩
  intro link hlink
  rcases List.mem_append.mp hlink with hlink | hlink
  · exact hidle link hlink
  · exact hidle' link hlink

theorem addAnimation (sc : Scene α V) (s : Strategy α V) :
    sc.Grows [s] (sc.addAnimation s).2 :=
  ⟨by simp [Scene.addAnimation], [], by simp [Scene.addAnimation], by simp⟩

theorem addLink (sc : Scene α V) {link : Link α} (h : link.busy = false) :
    sc.Grows [] (sc.addLink link).2 :=
  ⟨by simp [Scene.addLink], [link], by simp [Scene.addLink], by simp [h]⟩

theorem cloneSlot (sc : Scene α V) (s : Slot α V) : sc.Grows [] (sc.cloneSlot s).2 := by
  cases s with
  | constant v => exact refl sc
  | external source => exact refl sc
  | link l => exact addLink sc rfl

/-! ## What growing leaves alone -/

theorem size (h : sc.Grows ss sc') :
    sc'.animations.size = sc.animations.size + ss.length := by
  simp [h.animations]

theorem strategiesFrom (h : sc.Grows ss sc') :
    sc'.strategiesFrom sc.animations.size = ss := by
  simp [Scene.strategiesFrom, h.animations, Function.comp_def]

theorem animation_of_lt (h : sc.Grows ss sc') {a : AnimationId} (ha : a < sc.animations.size) :
    sc'.animation a = sc.animation a := by
  simp [Scene.animation, h.animations, Array.getElem?_append, ha]

/-- An animation that was not there has a strategy and nothing else. -/
theorem animation_of_le (h : sc.Grows ss sc') {a : AnimationId} (ha : sc.animations.size ≤ a) :
    sc'.animation a =
      { strategy := (ss[a - sc.animations.size]?).getD (.chain []) } := by
  have hna : ¬ a < sc.animations.size := Nat.not_lt.mpr ha
  simp only [Scene.animation, h.animations, Array.getElem?_append, hna, if_false]
  cases hs : ss[a - sc.animations.size]? with
  | none => simp [hs]
  | some s => simp [hs]

theorem hook (h : sc.Grows ss sc') (a : AnimationId) :
    (sc'.animation a).hook = (sc.animation a).hook := by
  by_cases ha : a < sc.animations.size
  · rw [h.animation_of_lt ha]
  · rw [h.animation_of_le (Nat.not_lt.mp ha), animation_of_size_le (Nat.not_lt.mp ha)]

theorem busy (h : sc.Grows ss sc') (l : LinkId) : (sc'.link l).busy = (sc.link l).busy := by
  obtain ⟨ls, hl, hidle⟩ := h.links
  by_cases hlt : l < sc.links.size
  · simp [Scene.link, hl, Array.getElem?_append, hlt]
  · have hold : (sc.link l).busy = false := by simp [Scene.link, hlt]
    rw [hold]
    simp only [Scene.link, hl, Array.getElem?_append, hlt, if_false]
    cases hn : ls[l - sc.links.size]? with
    | none => simp [hn]
    | some link => simp [hn, hidle link (List.mem_of_getElem? hn)]

end Grows

/-! ## Built tweens -/

section Install

variable [Scalar α]

/-- The new animations of a drive, innermost first. -/
theorem Grows.drive (drive : Drive α) (sc : Scene α V) :
    ∃ ss, sc.Grows ss (drive.install sc).2 := by
  induction drive generalizing sc with
  | window w => exact ⟨[], .refl sc⟩
  | fixed ratio => exact ⟨[], .refl sc⟩
  | tween level drive ih =>
      obtain ⟨ss, h⟩ := ih sc
      exact ⟨_, (h.trans (.addAnimation _ _)).trans (.addLink _ rfl)⟩

theorem Grows.plan (p : Plan α) (sc : Scene α V) : ∃ ss, sc.Grows ss (p.install sc).2 := by
  obtain ⟨ss, h⟩ := Grows.drive p.drive sc
  exact ⟨_, h.trans (.addAnimation _ _)⟩

theorem Grows.plans (ps : List (Plan α)) (sc : Scene α V) :
    ∃ ss, sc.Grows ss (Plan.installAll ps sc).2 := by
  induction ps generalizing sc with
  | nil => exact ⟨[], .refl sc⟩
  | cons p rest ih =>
      obtain ⟨ss, h⟩ := Grows.plan p sc
      obtain ⟨ss', h'⟩ := ih (p.install sc).2
      exact ⟨_, h.trans h'⟩

theorem Grows.chain (ps : List (Plan α)) (sc : Scene α V) :
    ∃ ss, sc.Grows ss (Plan.installChain ps sc).2 := by
  obtain ⟨ss, h⟩ := Grows.plans ps sc
  exact ⟨_, h.trans (.addAnimation _ _)⟩

end Install

end Scene

end Inbetween
