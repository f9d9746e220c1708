import Inbetween.Proofs.Following

/-!
# Plans that play

An installed plan is a row of interpolations, each of which reads its time ratio through a link to
the next one. The row is closed: its values are constants, it has no hooks, and nobody else knows
its links. So sampling it gives what the plan itself says for the time of the clock, and all that is
left behind are the reads and samples of the row.

A row stays as it is while the scene grows.
-/

namespace Inbetween

open Act

variable {α : Type} {V : Vocabulary} {M : Type}

/-! ## What a plan says -/

section Values

variable [Scalar α]

/-- What a level reports at a time ratio. -/
def Level.sampleAt (level : Level α) (t : α) : Sample α :=
  (level.extend.normalize t).blend level.easing level.start level.finish

def Drive.ratioAt : Drive α → (time : α) → α
  | .window w, time => (time - w.opens) * w.inverseDuration
  | .fixed ratio, _ => ratio
  | .tween level drive, time => (level.sampleAt (drive.ratioAt time)).get

def Plan.sampleAt (p : Plan α) (time : α) : Sample α := p.level.sampleAt (p.drive.ratioAt time)

end Values

/-! ## Quiet events -/

/-- The event is a part of an evaluation in which no host code runs, nothing is changed and nobody
is warned. -/
def Event.isQuiet : Event α V → Bool
  | .readBegan _ | .readFinished _ _ | .sampleBegan _ _ | .sampleFinished _ _ _ => true
  | _ => false

theorem Event.cutsAt_of_isQuiet {e : Event α V} (h : e.isQuiet = true) (l : LinkId) :
    e.cutsAt l = false := by
  cases e <;> simp_all [isQuiet, cutsAt]

namespace World

variable {w w' : World α V M} {es es' : List (Event α V)}

@[simp] theorem record_nil (w : World α V M) : w.record [] = w := by simp [record]

@[simp] theorem record_record (w : World α V M) (es es' : List (Event α V)) :
    (w.record es).record es' = w.record (es ++ es') := by
  simp [record, Array.append_assoc]

theorem note_eq_record (w : World α V M) (e : Event α V) : w.note e = w.record [e] := by
  simp [note, record]

@[simp] theorem record_scene (w : World α V M) (es : List (Event α V)) :
    (w.record es).scene = w.scene := rfl

/-- Nothing but quiet events happens from one world to the other. -/
def Quietly (w : World α V M) (es : List (Event α V)) (w' : World α V M) : Prop :=
  w.Follows es w' ∧ ∀ e ∈ es, e.isQuiet = true

namespace Quietly

theorem refl (w : World α V M) : w.Quietly [] w := ⟨.refl w, by simp⟩

theorem trans {w'' : World α V M} (h : w.Quietly es w') (h' : w'.Quietly es' w'') :
    w.Quietly (es ++ es') w'' := by
  refine ⟨h.1.trans h'.1, fun e he => ?_⟩
  rcases List.mem_append.mp he with he | he
  · exact h.2 e he
  · exact h'.2 e he

theorem note (w : World α V M) {e : Event α V} (he : e.isQuiet = true) :
    w.Quietly [e] (w.note e) :=
  ⟨.note w fun l => Event.cutsAt_of_isQuiet he l, by simpa using he⟩

/-- No guard is lowered by quiet events, so they leave nothing behind but themselves. -/
theorem eq_record (h : w.Quietly es w') : w' = w.record es := by
  have hcut : ∀ l, es.any (Event.cutsAt l) = false := fun l =>
    List.any_eq_false.mpr fun e he => by simp [Event.cutsAt_of_isQuiet (h.2 e he) l]
  have hlinks : w'.scene.links = w.scene.links := by
    refine Array.ext_getElem? fun l => ?_
    rw [h.1.links]
    cases w.scene.links[l]? <;> simp [Link.after, hcut]
  exact h.1.eq_record_of_links hlinks

/-- The read of an idle link. -/
theorem read {l : LinkId} (idle : (w.scene.link l).busy = false) (h : (w.enter l).Quietly es w')
    (v : α) : w.Quietly (.readBegan l :: (es ++ [.readFinished l v])) (w'.leave l v) := by
  refine ⟨h.1.read idle v, fun e he => ?_⟩
  simp only [List.mem_cons, List.mem_append, List.not_mem_nil, or_false] at he
  rcases he with rfl | he | rfl
  · rfl
  · exact h.2 e he
  · rfl

/-- The sample of an interpolation, which is lent out and given back. -/
theorem lend {a : AnimationId} {through : Option LinkId}
    (h : (w.lend a through).Quietly es w') (s : Sample α) :
    w.Quietly (.sampleBegan a through :: (es ++ [.sampleFinished a through s]))
      (w'.giveBack a through s) := by
  have hlent : (w.note (.sampleBegan a through)).Quietly es
      (w'.modifyAnimation a fun anim => { anim with sampling := anim.sampling - 1 }) :=
    ⟨h.1.lent, h.2⟩
  exact (note w rfl).trans (hlent.trans (note _ rfl))

end Quietly

end World

/-! ## Rows of interpolations -/

namespace Scene

/-- The animation has the strategy, and no hook. -/
def Stands (sc : Scene α V) (a : AnimationId) (s : Strategy α V) : Prop :=
  (sc.animation a).strategy = s ∧ (sc.animation a).hook = none

/-- The time source reads the row of a drive. All links of the row are older than the bound, and
each is younger than those behind it. -/
inductive Carries [Scalar α] (sc : Scene α V) : (bound : LinkId) → Drive α → TimeSource α V → Prop
  | window {bound : LinkId} (w : Window α) : sc.Carries bound (.window w) (.pace w.pace)
  | fixed {bound : LinkId} (ratio : α) :
      sc.Carries bound (.fixed ratio) (.slot (.constant ratio))
  | tween {bound l : LinkId} {a : AnimationId} {level : Level α} {drive : Drive α}
      {time : TimeSource α V} (older : l < bound) (found : sc.links[l]? = some { target := a })
      (stands : sc.Stands a (level.strategy time)) (inner : sc.Carries l drive time) :
      sc.Carries bound (.tween level drive) (.slot (.link l))

/-- The animation plays the plan. -/
def Plays [Scalar α] (sc : Scene α V) (a : AnimationId) (p : Plan α) : Prop :=
  ∃ time, sc.Stands a (p.level.strategy time) ∧ sc.Carries sc.links.size p.drive time

section Frames

variable {sc sc' : Scene α V}

theorem Stands.lt_size {a : AnimationId} {s : Strategy α V} (h : sc.Stands a s)
    (hs : s ≠ .chain []) : a < sc.animations.size := by
  refine Nat.lt_of_not_le fun hle => hs ?_
  rw [← h.1, animation_of_size_le hle]

variable [Scalar α]

theorem Carries.mono {bound bound' : LinkId} {drive : Drive α} {time : TimeSource α V}
    (h : sc.Carries bound drive time) (hle : bound ≤ bound') : sc.Carries bound' drive time := by
  cases h with
  | window w => exact .window w
  | fixed ratio => exact .fixed ratio
  | tween older found stands inner => exact .tween (Nat.lt_of_lt_of_le older hle) found stands inner

/-- A row is carried by every scene that agrees on its links and its animations. -/
theorem Carries.frame {bound : LinkId} {drive : Drive α} {time : TimeSource α V}
    (h : sc.Carries bound drive time) (links : ∀ l < bound, sc'.links[l]? = sc.links[l]?)
    (animations : ∀ a s, s ≠ .chain [] → sc.Stands a s → sc'.Stands a s) :
    sc'.Carries bound drive time := by
  induction h with
  | window w => exact .window w
  | fixed ratio => exact .fixed ratio
  | tween older found stands _ ih =>
      refine .tween older ((links _ older).trans found) (animations _ _ ?_ stands) (ih ?_)
      · simp [Level.strategy]
      · exact fun l hl => links l (Nat.lt_trans hl older)

end Frames

/-! ### Growing scenes -/

section Growth

variable {sc sc' : Scene α V} {ss : List (Strategy α V)}

theorem Grows.stands (g : sc.Grows ss sc') {a : AnimationId} {s : Strategy α V}
    (hs : s ≠ .chain []) (h : sc.Stands a s) : sc'.Stands a s := by
  rw [Stands, g.animation_of_lt (h.lt_size hs)]
  exact h

theorem Grows.link_eq (g : sc.Grows ss sc') {l : LinkId} (hl : l < sc.links.size) :
    sc'.links[l]? = sc.links[l]? := by
  obtain ⟨links, heq, -⟩ := g.links
  simp [heq, Array.getElem?_append, hl]

theorem Grows.links_le (g : sc.Grows ss sc') : sc.links.size ≤ sc'.links.size := by
  obtain ⟨links, heq, -⟩ := g.links
  simp [heq]

variable [Scalar α]

theorem Grows.carries (g : sc.Grows ss sc') {drive : Drive α} {time : TimeSource α V}
    (h : sc.Carries sc.links.size drive time) : sc'.Carries sc.links.size drive time :=
  h.frame (fun _ hl => g.link_eq hl) fun _ _ hs hstands => g.stands hs hstands

theorem Grows.plays (g : sc.Grows ss sc') {a : AnimationId} {p : Plan α} (h : sc.Plays a p) :
    sc'.Plays a p := by
  obtain ⟨time, stands, carries⟩ := h
  exact ⟨time, g.stands (by simp [Level.strategy]) stands, (g.carries carries).mono g.links_le⟩

end Growth

/-! ### Installing -/

section Installing

theorem stands_addAnimation (sc : Scene α V) (s : Strategy α V) :
    (sc.addAnimation s).2.Stands (sc.addAnimation s).1 s := by
  simp [Stands, Scene.addAnimation, Scene.animation]

variable [Scalar α]

theorem carries_install (drive : Drive α) (sc : Scene α V) :
    (drive.install sc).2.Carries (drive.install sc).2.links.size drive (drive.install sc).1 := by
  induction drive generalizing sc with
  | window w => exact .window w
  | fixed ratio => exact .fixed ratio
  | tween level drive ih =>
      have inner := ih sc
      simp only [Drive.install]
      generalize drive.install sc = row at inner ⊢
      obtain ⟨time, sc₁⟩ := row
      have added := Grows.addAnimation sc₁ (level.strategy time)
      have idle : ({ target := (sc₁.addAnimation (level.strategy time)).1 } : Link α).busy =
          false := rfl
      have linked := added.trans (Grows.addLink (sc₁.addAnimation (level.strategy time)).2 idle)
      have stands := stands_addAnimation sc₁ (level.strategy time)
      refine .tween (a := (sc₁.addAnimation (level.strategy time)).1) ?_ ?_ stands ?_
      · simp [Scene.addLink]
      · simp [Scene.addLink]
      · exact linked.carries inner

theorem plays_install (p : Plan α) (sc : Scene α V) :
    (p.install sc).2.Plays (p.install sc).1 p := by
  have row := carries_install p.drive sc
  simp only [Plan.install]
  generalize p.drive.install sc = made at row ⊢
  obtain ⟨time, sc₁⟩ := made
  exact ⟨time, stands_addAnimation sc₁ (p.level.strategy time),
    (Grows.addAnimation sc₁ _).carries row⟩

theorem plays_installAll (ps : List (Plan α)) (sc : Scene α V) :
    List.Forall₂ (Plan.installAll ps sc).2.Plays (Plan.installAll ps sc).1 ps := by
  induction ps generalizing sc with
  | nil => exact .nil
  | cons p rest ih =>
      obtain ⟨ss, g⟩ := Grows.plans rest (p.install sc).2
      exact .cons (g.plays (plays_install p sc)) (ih (p.install sc).2)

theorem plays_installChain (ps : List (Plan α)) (sc : Scene α V) :
    (Plan.installChain ps sc).2.Stands (Plan.installChain ps sc).1
        (.chain (Plan.installAll ps sc).1) ∧
      List.Forall₂ (Plan.installChain ps sc).2.Plays (Plan.installAll ps sc).1 ps := by
  have segments := plays_installAll ps sc
  simp only [Plan.installChain]
  generalize Plan.installAll ps sc = made at segments ⊢
  obtain ⟨ids, sc₁⟩ := made
  have g := Grows.addAnimation sc₁ (.chain ids)
  exact ⟨stands_addAnimation sc₁ (.chain ids), segments.imp fun _ _ => g.plays⟩

end Installing

end Scene

/-! ## Sampling a row -/

section Sampling

open Evaluate

variable [Scalar α] {host : Host α V M} {w w' : World α V M}

theorem answers_read_constant {v : α} {clock : Clock α} :
    host.Answers (.read (.constant v) clock) w v w :=
  ⟨1, rfl⟩

/-- A level reports what its time ratio makes of it. -/
theorem yields_sample_level {a : AnimationId} {level : Level α} {time : TimeSource α V}
    (stands : w.scene.Stands a (level.strategy time)) {through : Option LinkId} {clock : Clock α}
    {t : α} (ratio : (ratio clock time).Yields host (w.lend a through) t w') :
    (sample host through a clock).Yields host w (level.sampleAt t)
      (w'.giveBack a through (level.sampleAt t)) := by
  have hi : (w.scene.animation a).interpolation? = some
      { start := .constant level.start, finish := .constant level.finish, time := time,
        easing := level.easing, extend := level.extend } := by
    rw [Animation.interpolation?, stands.1]
    rfl
  refine (yields_sample_interpolation hi).mpr ⟨w', yields_interpolation.mpr ?_, rfl⟩
  exact ⟨t, w', level.start, w', level.finish, ratio, answers_read_constant,
    answers_read_constant, rfl⟩

/-- The row of a drive gives the ratio of the drive. The induction follows the drive inward; the
link that is being read is younger than all links further in, so its guard meets nobody. -/
theorem Scene.Carries.yields_ratio (host : Host α V M) {bound : LinkId} {drive : Drive α}
    {time : TimeSource α V} (h : w.scene.Carries bound drive time) (clock : Clock α) :
    ∃ es w', (ratio clock time).Yields host w (drive.ratioAt clock.time) w' ∧
      w.Quietly es w' := by
  induction drive generalizing bound time w with
  | window win =>
      cases h with
      | window => exact ⟨[], w, yields_done.mpr ⟨rfl, rfl⟩, .refl w⟩
  | fixed ratio =>
      cases h with
      | fixed => exact ⟨[], w, yields_ask.mpr answers_read_constant, .refl w⟩
  | tween level drive ih =>
      cases h with
      | @tween _ l a _ _ time older found stands inner =>
          have hlent : ((w.enter l).lend a (some l)).scene.Carries l drive time := by
            refine inner.frame (fun m hm => ?_) fun b s _ hs => ?_
            · have hne : l ≠ m := fun heq => absurd hm (heq ▸ Nat.lt_irrefl l)
              simp [World.lend, World.enter, Scene.modifyAnimation, Scene.modifyLink,
                Array.getElem?_modify, hne]
            · simp only [Stands, World.lend, World.enter, World.modifyAnimation_scene,
                World.note_scene, World.modifyLink_scene, Scene.animation_modifyAnimation,
                Scene.animation_modifyLink]
              split <;> exact hs
          obtain ⟨es, w₁, hratio, hquiet⟩ := ih hlent
          have hstands : (w.enter l).scene.Stands a (level.strategy time) := stands
          have hsample := yields_sample_level hstands hratio
          have hback := hquiet.lend (level.sampleAt (drive.ratioAt clock.time))
          generalize hs : level.sampleAt (drive.ratioAt clock.time) = s at hsample hback
          have hhook : ((w₁.giveBack a (some l) s).scene.animation a).hook = none := by
            rw [hback.1.animation]
            exact stands.2
          have hvalue : host.Concludes a l s (w₁.giveBack a (some l) s) s.get
              (w₁.giveBack a (some l) s) := by
            cases s with
            | value v => exact ⟨rfl, rfl⟩
            | ended v =>
                rw [Host.Concludes, hhook]
                exact ⟨rfl, rfl⟩
          have hidle : (w.scene.link l).busy = false := by simp [Scene.link, found]
          have hdrive : (Drive.tween level drive).ratioAt clock.time = s.get := by
            rw [Drive.ratioAt, hs]
          refine ⟨_, _, yields_ask.mpr (answers_read_link.mpr ?_), hback.read hidle s.get⟩
          rw [Host.Reads, found, hdrive]
          exact ⟨_, Host.answers_iff.mpr (yields_evaluateIn.mpr ⟨s, _, hsample, hvalue⟩), rfl⟩

/-- An animation that plays a plan reports what the plan says for the time of the clock. -/
theorem Scene.Plays.answers_sample (host : Host α V M) {a : AnimationId} {p : Plan α}
    (h : w.scene.Plays a p) (clock : Clock α) :
    ∃ es, host.Answers (.sample a clock) w (p.sampleAt clock.time)
      (w.record (.sampleBegan a none :: (es ++ [.sampleFinished a none (p.sampleAt clock.time)]))) ∧
      ∀ e ∈ es, e.isQuiet = true := by
  obtain ⟨time, stands, carries⟩ := h
  have hlent : (w.lend a none).scene.Carries w.scene.links.size p.drive time := by
    refine carries.frame (fun _ _ => rfl) fun b s _ hs => ?_
    simp only [Stands, World.lend, World.modifyAnimation_scene, World.note_scene,
      Scene.animation_modifyAnimation]
    split <;> exact hs
  obtain ⟨es, w₁, hratio, hquiet⟩ := hlent.yields_ratio host clock
  refine ⟨es, ?_, hquiet.2⟩
  rw [← (hquiet.lend (p.sampleAt clock.time)).eq_record]
  exact Host.answers_iff.mpr (yields_sample_level stands hratio)

end Sampling

/-! ## Building -/

section Building

open Evaluate

/-- The world after its scene has grown, which is taken down. -/
def World.grow (w : World α V M) (scene : Scene α V) : World α V M :=
  { w with scene := scene }.note
    (.added w.scene.animations.size (scene.strategiesFrom w.scene.animations.size))

/-- The world after a draft is installed: its notes are taken, and what it settled on is added. -/
def World.install {β : Type} (w : World α V M) (draft : Draft α β)
    (add : β → Scene α V → AnimationId × Scene α V) :
    Except (Error α) AnimationId × World α V M :=
  let noted := w.record (draft.notes.map .noted)
  match draft.outcome with
  | .error e => (.error e, noted)
  | .ok b => (.ok (add b w.scene).1, noted.grow (add b w.scene).2)

variable [Scalar α] {host : Host α V M} {w w' : World α V M}

theorem yields_notes {notes : List (Note α)} :
    (notes.forM fun n => (Act.note (.noted n) : Act α V M Unit)).Yields host w () w' ↔
      w' = w.record (notes.map .noted) := by
  induction notes generalizing w with
  | nil => simp
  | cons n rest ih =>
      have hrecord : w.record ((n :: rest).map .noted) =
          (w.note (.noted n)).record (rest.map .noted) := by
        simp [World.note_eq_record]
      rw [hrecord]
      exact ih

theorem yields_grow {β : Type} {f : Scene α V → β × Scene α V} {b : β} :
    (Act.grow f).Yields host w b w' ↔ b = (f w.scene).1 ∧ w' = w.grow (f w.scene).2 := by
  simp only [Act.grow, extend, see, bind_eq_bind, look_bind, done_bind, update_bind, note_bind,
    yields_look, yields_update, pure_eq_done, yields_done]
  rfl

theorem answers_add {s : Strategy α V} {a : AnimationId} :
    host.Answers (.add s) w a w' ↔
      a = (w.scene.addAnimation s).1 ∧ w' = w.grow (w.scene.addAnimation s).2 :=
  Host.answers_iff.trans yields_grow

/-- What was settled on is taken down, and added if nothing failed. -/
theorem yields_install {β : Type} {draft : Draft α β}
    {add : β → Scene α V → AnimationId × Scene α V} {r : Except (Error α) AnimationId} :
    (Evaluate.install draft add).Yields host w r w' ↔ (r, w') = w.install draft add := by
  have hnotes : ∀ {u : Unit} {w₁ : World α V M},
      (draft.notes.forM fun n => (Act.note (.noted n) : Act α V M Unit)).Yields host w u w₁ ↔
        w₁ = w.record (draft.notes.map .noted) := yields_notes
  simp only [Evaluate.install, bind_eq_bind, yields_bind, hnotes, World.install]
  cases draft.outcome with
  | error e => simp
  | ok b => simp [yields_bind, yields_grow, and_comm]

theorem answers_build {spec : Spec α} {cfg : Config} {built : Clock α} {current : Option α}
    {r : Except (Error α) AnimationId} :
    host.Answers (.build spec cfg built current) w r w' ↔
      (r, w') = w.install (spec.plan cfg built current none) Plan.install := by
  rw [Host.answers_iff]
  exact yields_install

/-- A description can be built if it has a plan. -/
theorem exists_answers_build_ok {spec : Spec α} {cfg : Config} {built : Clock α}
    {current : Option α} :
    (∃ a w', host.Answers (.build spec cfg built current) w (.ok a) w') ↔
      ∃ p, (spec.plan cfg built current none).outcome = .ok p := by
  simp only [answers_build, World.install]
  cases (spec.plan cfg built current none).outcome with
  | error e => simp
  | ok p => simp

/-- Otherwise building fails as drafting the plan does. -/
theorem exists_answers_build_error {spec : Spec α} {cfg : Config} {built : Clock α}
    {current : Option α} {e : Error α} :
    (∃ w', host.Answers (.build spec cfg built current) w (.error e) w') ↔
      (spec.plan cfg built current none).outcome = .error e := by
  simp only [answers_build, World.install]
  cases (spec.plan cfg built current none).outcome with
  | error e' => simp [eq_comm]
  | ok p => simp

theorem answers_buildChain {spec : ChainSpec α} {cfg : Config} {built : Clock α}
    {current : Option α} {r : Except (Error α) AnimationId} :
    host.Answers (.buildChain spec cfg built current) w r w' ↔
      (r, w') = w.install (spec.plans cfg built current) Plan.installChain := by
  rw [Host.answers_iff]
  exact yields_install

end Building

end Inbetween
