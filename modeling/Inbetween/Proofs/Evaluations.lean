import Inbetween.Proofs.Runs

/-!
# Evaluations

What the calls that sample an animation come to, in the worlds that they pass on their way.
-/

namespace Inbetween

open Act Evaluate

variable {α : Type} {V : Vocabulary} {M : Type}

namespace World

/-- A read of a link begins. -/
def enter (w : World α V M) (l : LinkId) : World α V M :=
  (w.note (.readBegan l)).modifyLink l fun link => { link with busy := true }

/-- A read of a link ends. -/
def leave (w : World α V M) (l : LinkId) (v : α) : World α V M :=
  (w.modifyLink l fun link => { link with busy := false }).note (.readFinished l v)

/-- The pin of a link is set or taken away. -/
def setPin (w : World α V M) (l : LinkId) (pin : Option α) : World α V M :=
  (w.modifyLink l fun link => { link with pin := pin }).note (.pinSet l pin)

/-- A sample of an interpolation begins, and its configuration is lent out. -/
def lend (w : World α V M) (a : AnimationId) (through : Option LinkId) : World α V M :=
  (w.note (.sampleBegan a through)).modifyAnimation a fun anim =>
    { anim with sampling := anim.sampling + 1 }

/-- A sample of an interpolation gives the configuration back and ends. -/
def giveBack (w : World α V M) (a : AnimationId) (through : Option LinkId) (s : Sample α) :
    World α V M :=
  (w.modifyAnimation a fun anim =>
    { anim with sampling := anim.sampling - 1 }).note (.sampleFinished a through s)

end World

/-- The call, made in a world, samples an animation, on its own or through a link, and the sample
begins in the world that comes last. A read samples if it gets past the pin and the guard. -/
inductive Call.Samples : Call α V M → World α V M → AnimationId → Option LinkId → Clock α →
    World α V M → Prop
  | direct {w : World α V M} {a : AnimationId} {clock : Clock α} :
      (Call.sample a clock).Samples w a none clock w
  | evaluated {w : World α V M} {a : AnimationId} {l : LinkId} {clock : Clock α} :
      (Call.evaluateIn a l clock).Samples w a (some l) clock w
  | read {w : World α V M} {l : LinkId} {here : Link α} {clock : Clock α}
      (found : w.scene.links[l]? = some here) (unpinned : here.pin = none)
      (idle : here.busy = false) :
      (Call.read (.link l) clock).Samples w here.target (some l) clock (w.enter l)

variable [Scalar α] {host : Host α V M} {w w' : World α V M}

/-- The sample of an interpolation is computed by the configuration that it found. -/
theorem yields_sample_interpolation {a : AnimationId} {i : Interpolation α V}
    (hi : (w.scene.animation a).interpolation? = some i) {through : Option LinkId}
    {clock : Clock α} {s : Sample α} :
    (sample host through a clock).Yields host w s w' ↔
      ∃ w₁, (interpolation clock i).Yields host (w.lend a through) s w₁ ∧
        w' = w₁.giveBack a through s := by
  have hs := Strategy.eq_of_interpolation? hi
  simp only [sample, bind_eq_bind, note_bind, animation_bind, yields_update, yields_look,
    World.note_scene, hs, strategy, borrowing, modifyAnimation_bind, yields_bind, pure_eq_done,
    yields_done]
  constructor
  · rintro ⟨_, _, ⟨b, w₁, hy, rfl, rfl⟩, rfl, rfl⟩
    exact ⟨w₁, hy, rfl⟩
  · rintro ⟨w₁, hy, rfl⟩
    exact ⟨s, _, ⟨s, w₁, hy, rfl, rfl⟩, rfl, rfl⟩

theorem yields_interpolation {i : Interpolation α V} {clock : Clock α} {s : Sample α} :
    (interpolation clock i).Yields host w s w' ↔
      ∃ t w₁ x w₂ y, (ratio clock i.time).Yields host w t w₁ ∧
        host.Answers (.read i.start clock) w₁ x w₂ ∧ host.Answers (.read i.finish clock) w₂ y w' ∧
        s = (i.extend.normalize t).blend i.easing x y := by
  simp only [interpolation, bind_eq_bind, yields_bind, pure_eq_done, yields_done]
  constructor
  · rintro ⟨t, w₁, ht, x, w₂, hx, y, w₃, hy, hs, rfl⟩
    exact ⟨t, w₁, x, w₂, y, ht, yields_ask.mp hx, yields_ask.mp hy, hs⟩
  · rintro ⟨t, w₁, x, w₂, y, ht, hx, hy, hs⟩
    exact ⟨t, w₁, ht, x, w₂, yields_ask.mpr hx, y, w', yields_ask.mpr hy, hs, rfl⟩

theorem yields_sample_iff {a : AnimationId} {through : Option LinkId} {clock : Clock α}
    {s : Sample α} :
    (sample host through a clock).Yields host w s w' ↔
      ∃ w₁, (strategy host a clock (w.scene.animation a).strategy).Yields host
        (w.note (.sampleBegan a through)) s w₁ ∧ w' = w₁.note (.sampleFinished a through s) := by
  simp only [sample, bind_eq_bind, note_bind, animation_bind, yields_update, yields_look,
    World.note_scene, yields_bind, pure_eq_done, yields_done]
  constructor
  · rintro ⟨_, w₁, hy, rfl, rfl⟩
    exact ⟨w₁, hy, rfl⟩
  · rintro ⟨w₁, hy, rfl⟩
    exact ⟨s, w₁, hy, rfl, rfl⟩

/-! ## Through a link -/

/-- What becomes of a sample that was taken through a link. If the animation is over, the hook that
is installed at this moment runs, told of the link and the end value, and its result is the value.
-/
def Host.Concludes (host : Host α V M) (a : AnimationId) (l : LinkId) (s : Sample α)
    (w : World α V M) (v : α) (w' : World α V M) : Prop :=
  match s with
  | .value u => v = u ∧ w' = w
  | .ended u =>
    match (w.scene.animation a).hook with
    | none => v = u ∧ w' = w
    | some hook => (host.hook hook l u).perform.Yields host (w.note (.hookRun hook l u)) v w'

theorem yields_evaluateIn {a : AnimationId} {l : LinkId} {clock : Clock α} {v : α} :
    (evaluateIn host a l clock).Yields host w v w' ↔
      ∃ s w₁, (sample host (some l) a clock).Yields host w s w₁ ∧
        host.Concludes a l s w₁ v w' := by
  simp only [evaluateIn, bind_eq_bind, yields_bind]
  refine exists_congr fun s => exists_congr fun w₁ => and_congr_right fun _ => ?_
  cases s with
  | value u => simp [Host.Concludes]
  | ended u =>
      simp only [animation_bind, yields_look, Host.Concludes]
      cases (w₁.scene.animation a).hook with
      | none => simp
      | some hook => simp

/-- How a read of a link goes. A pin and a cycle are answered at once, and otherwise the animation
is evaluated. -/
def Host.Reads (host : Host α V M) (l : LinkId) (clock : Clock α) (w : World α V M) (v : α)
    (w' : World α V M) : Prop :=
  match w.scene.links[l]? with
  | none => v = 0.0 ∧ w' = w
  | some here =>
    match here.pin with
    | some u => v = u ∧ w' = w
    | none =>
      if here.busy then
        v = 0.0 ∧ w' = (w.note (.cycleMet l)).modifyLink l fun link => { link with busy := false }
      else
        ∃ w₁, host.Answers (.evaluateIn here.target l clock) (w.enter l) v w₁ ∧
          w' = w₁.leave l v

theorem answers_read_link {l : LinkId} {clock : Clock α} {v : α} :
    host.Answers (.read (.link l) clock) w v w' ↔ host.Reads l clock w v w' := by
  rw [Host.answers_iff, Host.Reads]
  show (readLink host l clock).Yields host w v w' ↔ _
  simp only [readLink, bind_eq_bind, link?_bind, yields_look]
  cases w.scene.links[l]? with
  | none => simp
  | some here =>
      cases hpin : here.pin with
      | some u => simp [hpin]
      | none =>
          by_cases hbusy : here.busy = true
          · simp [hpin, hbusy]
          · simp only [hpin, hbusy, Bool.false_eq_true, if_false, note_bind, modifyLink_bind,
              yields_update, yields_bind, pure_eq_done, yields_done]
            constructor
            · rintro ⟨u, w₁, hy, rfl, rfl⟩
              exact ⟨w₁, Host.answers_iff.mpr hy, rfl⟩
            · rintro ⟨w₁, hy, rfl⟩
              exact ⟨v, w₁, Host.answers_iff.mp hy, rfl, rfl⟩

theorem answers_setPin {l : LinkId} {pin : Option α} {u : Unit} :
    host.Answers (.setPin l pin) w u w' ↔
      w' = if w.scene.links[l]?.isSome then w.setPin l pin else w := by
  rw [Host.answers_iff]
  show (Evaluate.setPin l pin).Yields host w u w' ↔ _
  simp only [Evaluate.setPin, bind_eq_bind, link?_bind, yields_look]
  split
  · simp [Act.note, Act.modify, World.setPin]
  · simp

/-! ## Being over -/

theorem Extend.normalize_eq_past {mode : Extend} {t : α} :
    mode.normalize t = .past ↔ mode = .constant ∧ ¬ t < 0.0 ∧ t > 1.0 := by
  cases mode with
  | constant =>
      by_cases hneg : t < 0.0
      · simp [normalize, hneg]
      · by_cases hpast : t > 1.0 <;> simp [normalize, hneg, hpast]
  | extrapolate => simp [normalize]
  | repeating => simp [normalize]
  | reverse => simp [normalize]

theorem Phase.blend_eq_ended {phase : Phase α} {easing : Easing} {x y v : α} :
    phase.blend easing x y = .ended v ↔ phase = .past ∧ v = y := by
  cases phase <;> simp [blend, eq_comm]

theorem Phase.trace_eq_ended {phase : Phase α} {b : Bezier α} {v : α} :
    phase.trace b = .ended v ↔ phase = .past ∧ v = b.p3 := by
  cases phase <;> simp [trace, eq_comm]

/-- The animations are sampled one after the other, all of them are over, and the last one ends with
the given value. -/
def Host.AllEnd (host : Host α V M) (clock : Clock α) :
    List AnimationId → World α V M → α → World α V M → Prop
  | [], _, _, _ => False
  | [last], w, v, w' => host.Answers (.sample last clock) w (.ended v) w'
  | segment :: rest, w, v, w' => ∃ u w₁,
    host.Answers (.sample segment clock) w (.ended u) w₁ ∧ host.AllEnd clock rest w₁ v w'

/-- How the sample of an animation comes to be over, by the strategy of the animation. There is no
way for a wrap or a rate. -/
inductive Host.Ends (host : Host α V M) (through : Option LinkId) (a : AnimationId)
    (clock : Clock α) (w : World α V M) : Strategy α V → α → World α V M → Prop
  | interpolation {i : Interpolation α V} {t x v : α} {w₁ w₂ w₃ : World α V M}
      (mode : i.extend = .constant)
      (ratio : (ratio clock i.time).Yields host (w.lend a through) t w₁)
      (past : ¬ t < 0.0 ∧ t > 1.0)
      (start : host.Answers (.read i.start clock) w₁ x w₂)
      (finish : host.Answers (.read i.finish clock) w₂ v w₃) :
      host.Ends through a clock w (.interpolate i) v (w₃.giveBack a through (.ended v))
  | bezier {points : Bezier α} {time : TimeSource α V} {t : α} {w₁ : World α V M}
      (ratio : (ratio clock time).Yields host (w.note (.sampleBegan a through)) t w₁)
      (past : ¬ t < 0.0 ∧ t > 1.0) :
      host.Ends through a clock w (.bezier points time .constant) points.p3
        (w₁.note (.sampleFinished a through (.ended points.p3)))
  | chain {segments : List AnimationId} {v : α} {w₁ : World α V M}
      (all : host.AllEnd clock segments (w.note (.sampleBegan a through)) v w₁) :
      host.Ends through a clock w (.chain segments) v
        (w₁.note (.sampleFinished a through (.ended v)))
  | custom {s : V.Strategy} {v : α} (ending : host.strategy s clock = .ended v) :
      host.Ends through a clock w (.custom s) v
        ((w.note (.sampleBegan a through)).note (.sampleFinished a through (.ended v)))

/-- Every call that the act makes is of the given kind. -/
def Act.MakesOnly {β : Type} (kind : Call α V M → Prop) : Act α V M β → Prop
  | .done _ => True
  | .look next => ∀ w, (next w).MakesOnly kind
  | .update _ next => next.MakesOnly kind
  | .call c next => kind c ∧ ∀ a, (next a).MakesOnly kind

omit [Scalar α] in
theorem Act.MakesOnly.mono {β : Type} {kind kind' : Call α V M → Prop}
    (hkind : ∀ c, kind c → kind' c) {p : Act α V M β} (h : p.MakesOnly kind) :
    p.MakesOnly kind' := by
  induction p with
  | done b => trivial
  | look next ih => exact fun w => ih w (h w)
  | update f next ih => exact ih h
  | call c next ih => exact ⟨hkind c h.1, fun a => ih a (h.2 a)⟩

omit [Scalar α] in
theorem Act.MakesOnly.bind {β γ : Type} {kind : Call α V M → Prop} {p : Act α V M β}
    {f : β → Act α V M γ} (h : p.MakesOnly kind) (hf : ∀ b, (f b).MakesOnly kind) :
    (p.bind f).MakesOnly kind := by
  induction p with
  | done b => exact hf b
  | look next ih => exact fun w => ih w (h w)
  | update g next ih => exact ih h
  | call c next ih => exact ⟨h.1, fun a => ih a (h.2 a)⟩

/-- A chain samples its segments directly. -/
theorem chain_makesOnly (clock : Clock α) (segments : List AnimationId) :
    (chain (V := V) (M := M) clock segments).MakesOnly fun c =>
      ∃ a ∈ segments, c = .sample a clock := by
  -- The rest of a chain samples segments of the whole, so the whole is kept apart.
  suffices h : ∀ all : List AnimationId, (∀ a ∈ segments, a ∈ all) →
      (chain (V := V) (M := M) clock segments).MakesOnly fun c => ∃ a ∈ all, c = .sample a clock by
    exact h segments fun _ ha => ha
  intro all hall
  induction segments with
  | nil => trivial
  | cons segment rest ih =>
      have hsegment := hall segment List.mem_cons_self
      cases rest with
      | nil => exact ⟨⟨segment, hsegment, rfl⟩, fun _ => trivial⟩
      | cons next rest =>
          refine ⟨⟨segment, hsegment, rfl⟩, fun s => ?_⟩
          cases s with
          | value v => trivial
          | ended v => exact ih fun a ha => hall a (List.mem_cons_of_mem _ ha)

theorem yields_chain_ended {clock : Clock α} {segments : List AnimationId} {v : α} :
    (chain clock segments).Yields host w (.ended v) w' ↔ host.AllEnd clock segments w v w' := by
  induction segments generalizing w with
  | nil => simp [chain, Host.AllEnd]
  | cons segment rest ih =>
      cases rest with
      | nil => exact yields_ask
      | cons next rest =>
          simp only [chain, bind_eq_bind, yields_bind, Host.AllEnd]
          constructor
          · rintro ⟨s, w₁, hs, hrest⟩
            cases s with
            | value u => simp [Sample.isEnded] at hrest
            | ended u => exact ⟨u, w₁, yields_ask.mp hs, ih.mp hrest⟩
          · rintro ⟨u, w₁, hs, hrest⟩
            exact ⟨.ended u, w₁, yields_ask.mpr hs, ih.mpr hrest⟩

/-- A sample is over in the ways of its strategy, and in no other way. -/
theorem yields_sample_ended {a : AnimationId} {through : Option LinkId} {clock : Clock α} {v : α} :
    (sample host through a clock).Yields host w (.ended v) w' ↔
      host.Ends through a clock w (w.scene.animation a).strategy v w' := by
  cases hs : (w.scene.animation a).strategy with
  | interpolate i =>
      have hi : (w.scene.animation a).interpolation? = some i := by
        rw [Animation.interpolation?, hs, Strategy.interpolation?]
      rw [yields_sample_interpolation hi]
      constructor
      · rintro ⟨w₃, hy, rfl⟩
        obtain ⟨t, w₁, x, w₂, y, ht, hx, hy, hs⟩ := yields_interpolation.mp hy
        obtain ⟨hpast, rfl⟩ := Phase.blend_eq_ended.mp hs.symm
        obtain ⟨hmode, hratio⟩ := Extend.normalize_eq_past.mp hpast
        exact .interpolation hmode ht hratio hx hy
      · intro h
        cases h with
        | interpolation hmode ht hratio hx hy =>
            refine ⟨_, yields_interpolation.mpr ⟨_, _, _, _, _, ht, hx, hy, ?_⟩, rfl⟩
            exact (Phase.blend_eq_ended.mpr
              ⟨Extend.normalize_eq_past.mpr ⟨hmode, hratio⟩, rfl⟩).symm
  | bezier points time extend =>
      simp only [yields_sample_iff, hs, strategy, bind_eq_bind, yields_bind, pure_eq_done,
        yields_done]
      constructor
      · rintro ⟨w₁, ⟨t, w₂, ht, hv, rfl⟩, rfl⟩
        obtain ⟨hpast, rfl⟩ := Phase.trace_eq_ended.mp hv.symm
        obtain ⟨rfl, hratio⟩ := Extend.normalize_eq_past.mp hpast
        exact .bezier ht hratio
      · intro h
        cases h with
        | bezier ht hratio =>
            refine ⟨_, ⟨_, _, ht, ?_, rfl⟩, rfl⟩
            exact (Phase.trace_eq_ended.mpr
              ⟨Extend.normalize_eq_past.mpr ⟨rfl, hratio⟩, rfl⟩).symm
  | wrap low high source =>
      simp only [yields_sample_iff, hs, strategy, bind_eq_bind, yields_bind, pure_eq_done,
        yields_done]
      constructor
      · rintro ⟨w₁, ⟨_, _, _, _, _, _, _, _, _, hv, _⟩, _⟩
        cases hv
      · rintro ⟨⟩
  | rate source last current =>
      simp only [yields_sample_iff, hs, strategy]
      constructor
      · rintro ⟨w₁, hy, rfl⟩
        split at hy
        · simp at hy
        · simp only [bind_eq_bind, yields_bind, modifyAnimation_bind, yields_update, pure_eq_done,
            yields_done] at hy
          obtain ⟨_, _, _, hv, _⟩ := hy
          cases hv
      · rintro ⟨⟩
  | chain segments =>
      simp only [yields_sample_iff, hs, strategy, yields_chain_ended]
      constructor
      · rintro ⟨w₁, hall, rfl⟩
        exact .chain hall
      · intro h
        cases h with
        | chain hall => exact ⟨_, hall, rfl⟩
  | custom s =>
      simp only [yields_sample_iff, hs, strategy, pure_eq_done, yields_done]
      constructor
      · rintro ⟨w₁, ⟨hv, rfl⟩, rfl⟩
        exact .custom hv.symm
      · intro h
        cases h with
        | custom hv => exact ⟨_, ⟨hv.symm, rfl⟩, rfl⟩

end Inbetween
