import Inbetween.Proofs.Plans
import Inbetween.Proofs.Renderings
import Inbetween.Proofs.Separation

/-!
# The clock stands still

While the clock stands still, only rates change, and each of them changes once: to what its rendering
says. So there is nothing to a world in between but which rates have been renewed, and with each of
them the ones that it comes by. Every read is the rendering, whatever was read before, and renews the
rates of the rendering that are not renewed yet.
-/

namespace Inbetween

open Act

variable {α : Type} {V : Vocabulary} {M : Type} {β γ : Type}

/-! ## Renewing -/

namespace Scene

open Classical in
/-- Some of the animations get new strategies. -/
noncomputable def renew (sc : Scene α V) (strategies : AnimationId → Strategy α V)
    (names : Set AnimationId) : Scene α V :=
  { sc with animations := sc.animations.mapIdx fun a anim =>
      if a ∈ names then { anim with strategy := strategies a } else anim }

variable {sc sc' : Scene α V} {strategies : AnimationId → Strategy α V}
  {names names' : Set AnimationId}

theorem ext_animations (links : sc.links = sc'.links)
    (animations : ∀ a : AnimationId, sc.animations[a]? = sc'.animations[a]?) : sc = sc' := by
  obtain ⟨as, ls⟩ := sc
  obtain ⟨as', ls'⟩ := sc'
  obtain rfl : as = as' := Array.ext_getElem? animations
  obtain rfl : ls = ls' := links
  rfl

@[simp] theorem renew_links : (sc.renew strategies names).links = sc.links := rfl

@[simp] theorem renew_size : (sc.renew strategies names).animations.size = sc.animations.size :=
  Array.size_mapIdx

open Classical in
theorem renew_getElem? (a : AnimationId) : (sc.renew strategies names).animations[a]? =
    sc.animations[a]?.map fun anim =>
      if a ∈ names then { anim with strategy := strategies a } else anim :=
  Array.getElem?_mapIdx

/-- Nothing becomes of animations that have their new strategies already. -/
theorem renew_eq_self (h : ∀ a ∈ names, (sc.animation a).strategy = strategies a) :
    sc.renew strategies names = sc := by
  apply ext_animations
  · rfl
  · intro a
    rw [renew_getElem?]
    cases ha : sc.animations[a]? with
    | none => rfl
    | some anim =>
        by_cases hmem : a ∈ names
        · have hstrategy := h a hmem
          rw [animation, ha] at hstrategy
          rw [Option.map_some, if_pos hmem, ← hstrategy]
          rfl
        · rw [Option.map_some, if_neg hmem]

theorem renew_renew :
    (sc.renew strategies names).renew strategies names' = sc.renew strategies (names ∪ names') := by
  apply ext_animations
  · rfl
  · intro a
    simp only [renew_getElem?, Option.map_map]
    congr 1
    funext anim
    by_cases h : a ∈ names <;> by_cases h' : a ∈ names' <;> simp [h, h']

theorem strategy_renew_of_mem {a : AnimationId} (ha : a ∈ names) (hsize : a < sc.animations.size) :
    ((sc.renew strategies names).animation a).strategy = strategies a := by
  rw [animation, renew_getElem?, Array.getElem?_eq_getElem hsize, Option.map_some, if_pos ha]
  rfl

theorem animation_renew_of_notMem {a : AnimationId} (ha : a ∉ names) :
    (sc.renew strategies names).animation a = sc.animation a := by
  rw [animation, animation, renew_getElem?]
  cases sc.animations[a]? with
  | none => rfl
  | some anim => rw [Option.map_some, if_neg ha]

theorem hook_renew (a : AnimationId) :
    ((sc.renew strategies names).animation a).hook = (sc.animation a).hook := by
  rw [animation, animation, renew_getElem?]
  cases sc.animations[a]? with
  | none => rfl
  | some anim =>
      rw [Option.map_some]
      split <;> rfl

theorem renew_insert (a : AnimationId) :
    ((sc.renew strategies names).modifyAnimation a fun anim =>
      { anim with strategy := strategies a }) = sc.renew strategies (names ∪ {a}) := by
  apply ext_animations
  · rfl
  · intro b
    rw [modifyAnimation, Array.getElem?_modify, renew_getElem?, renew_getElem?]
    by_cases hb : a = b
    · subst hb
      cases sc.animations[a]? <;> by_cases ha : a ∈ names <;> simp [ha]
    · by_cases ha : b ∈ names <;> simp [hb, Ne.symm hb, ha]

/-- What is lent out and given back makes no difference. -/
theorem renew_lent (a : AnimationId) :
    (((sc.modifyAnimation a fun anim => { anim with sampling := anim.sampling + 1 }).renew
      strategies names).modifyAnimation a fun anim =>
        { anim with sampling := anim.sampling - 1 }) = sc.renew strategies names := by
  apply ext_animations
  · rfl
  · intro b
    rw [modifyAnimation, Array.getElem?_modify, renew_getElem?, renew_getElem?, modifyAnimation,
      Array.getElem?_modify]
    by_cases hb : a = b
    · subst hb
      cases sc.animations[a]? <;> by_cases ha : a ∈ names <;> simp [ha]
    · rw [if_neg hb, if_neg hb]

end Scene

namespace World

/-- Some of the animations get new strategies, and events are taken down. -/
noncomputable def renew (strategies : AnimationId → Strategy α V) (names : Set AnimationId)
    (es : List (Event α V)) (w : World α V M) : World α V M :=
  { w.record es with scene := w.scene.renew strategies names }

variable {strategies : AnimationId → Strategy α V} {names names' : Set AnimationId}
  {es es' : List (Event α V)} {w : World α V M}

theorem renew_eq_self (h : ∀ a ∈ names, (w.scene.animation a).strategy = strategies a) :
    w.renew strategies names [] = w := by
  rw [renew, Scene.renew_eq_self h, record_nil]

theorem renew_empty : w.renew strategies ∅ [] = w :=
  renew_eq_self fun a ha => absurd ha (Set.notMem_empty a)

theorem renew_renew : (w.renew strategies names es).renew strategies names' es' =
    w.renew strategies (names ∪ names') (es ++ es') := by
  simp [renew, record, Scene.renew_renew]

theorem renew_insert (a : AnimationId) :
    ((w.renew strategies names es).modifyAnimation a fun anim =>
      { anim with strategy := strategies a }) = w.renew strategies (names ∪ {a}) es :=
  congrArg (fun scene => { w.record es with scene := scene }) (Scene.renew_insert a)

/-- The read of an idle link raises its guard and lowers it again. -/
theorem renew_read {l : LinkId} (idle : (w.scene.link l).busy = false) (v : α) :
    ((w.enter l).renew strategies names es).leave l v =
      w.renew strategies names (.readBegan l :: (es ++ [.readFinished l v])) := by
  have hlinks : ((w.scene.links.modify l fun link => { link with busy := true }).modify l
      fun link => { link with busy := false }) = w.scene.links := by
    apply Array.ext_getElem?
    intro m
    rw [Array.getElem?_modify, Array.getElem?_modify]
    split
    · rename_i hm
      subst hm
      rw [Scene.link] at idle
      cases hl : w.scene.links[l]? with
      | none => rfl
      | some k =>
          obtain ⟨target, busy, pin⟩ := k
          obtain rfl : busy = false := by rwa [hl] at idle
          rfl
    · rfl
  simp [enter, leave, renew, record, note, modifyLink, Scene.modifyLink, Scene.renew, hlinks]

theorem renew_note (e : Event α V) :
    (w.note e).renew strategies names es = w.renew strategies names (e :: es) := by
  simp [renew, record, note]

end World

/-! ## Worlds in which some rates have been renewed -/

section Standing

variable [Scalar α]

/-- With each of the animations, those that are renewed on the way to its rendering are among them.
-/
def Scene.Closed (sc : Scene α V) (code : Computation α V) (clock : Clock α)
    (names : Set AnimationId) : Prop :=
  ∀ a ∈ names, (sc.render code clock a).renewed ⊆ names

/-- The world is the scene as it is once the given animations have been renewed. No link to one of
the quiet animations is being read. -/
structure World.Stands (sc : Scene α V) (memory : M) (code : Computation α V) (clock : Clock α)
    (names quiet : Set AnimationId) (w : World α V M) : Prop where
  memory : w.memory = memory
  size : w.scene.animations.size = sc.animations.size
  renewed : ∀ a ∈ names, (w.scene.animation a).strategy = sc.renewal code clock a
  unchanged : ∀ a, a ∉ names → (w.scene.animation a).strategy = (sc.animation a).strategy
  hook : ∀ a, (w.scene.animation a).hook = (sc.animation a).hook
  link : ∀ l : LinkId, w.scene.links[l]?.map (fun k => (k.target, k.pin)) =
    sc.links[l]?.map fun k => (k.target, k.pin)
  idle : ∀ l here, sc.Unsettled l here → here.target ∈ quiet → (w.scene.link l).busy = false

variable {sc : Scene α V} {memory : M} {code : Computation α V} {clock : Clock α}
  {names names' quiet quiet' : Set AnimationId} {w : World α V M} {a : AnimationId}

theorem Scene.closed_empty : sc.Closed code clock ∅ := by
  intro a ha
  exact absurd ha (Set.notMem_empty a)

theorem Scene.Closed.union (h : sc.Closed code clock names) (h' : sc.Closed code clock names') :
    sc.Closed code clock (names ∪ names') := by
  intro a ha
  rcases ha with ha | ha
  · exact (h a ha).trans Set.subset_union_left
  · exact (h' a ha).trans Set.subset_union_right

theorem Scene.renewal_of_not_rate
    (h : ∀ source last current, (sc.animation a).strategy ≠ .rate source last current) :
    sc.renewal code clock a = (sc.animation a).strategy := by
  rw [renewal]
  split
  · rename_i source last current hrate
    exact absurd hrate (h source last current)
  · rfl

/-- A rate that was read at this time stays as it is. -/
theorem Scene.renewal_of_rate {source : Slot α V} {last : Reading α} {current : α}
    (own : (sc.animation a).strategy = .rate source last current)
    (now : (clock.time == last.time) = true) :
    sc.renewal code clock a = (sc.animation a).strategy := by
  rw [renewal, own]
  exact if_pos now

theorem Scene.renewal_of_stale (code : Computation α V) {source : Slot α V} {last : Reading α}
    {current : α} (own : (sc.animation a).strategy = .rate source last current)
    (stale : ¬ (clock.time == last.time) = true) :
    let next := ⟨clock.time, (sc.slotFrom code (sc.render code clock) source).value⟩
    sc.renewal code clock a = .rate source next (last.rate next) := by
  rw [renewal, own]
  exact if_neg stale

namespace World.Stands

theorem mono (h : w.Stands sc memory code clock names quiet') (hsub : quiet ⊆ quiet') :
    w.Stands sc memory code clock names quiet :=
  { h with idle := fun l here hhere hmem => h.idle l here hhere (hsub hmem) }

theorem note (h : w.Stands sc memory code clock names quiet) (e : Event α V) :
    (w.note e).Stands sc memory code clock names quiet :=
  { h with }

/-- An animation that renewing does not change is as it was. -/
theorem strategy_eq (h : w.Stands sc memory code clock names quiet)
    (hrenewal : sc.renewal code clock a = (sc.animation a).strategy) :
    (w.scene.animation a).strategy = (sc.animation a).strategy := by
  by_cases ha : a ∈ names
  · rw [h.renewed a ha, hrenewal]
  · exact h.unchanged a ha

theorem renew (h : w.Stands sc memory code clock names quiet) (more : Set AnimationId)
    (es : List (Event α V)) :
    (w.renew (sc.renewal code clock) more es).Stands sc memory code clock (names ∪ more)
      quiet where
  memory := h.memory
  size := Scene.renew_size.trans h.size
  renewed a ha := by
    by_cases hmore : a ∈ more
    · by_cases hsize : a < w.scene.animations.size
      · exact Scene.strategy_renew_of_mem hmore hsize
      · -- There is no such animation, and its name stands for a chain.
        have hle : sc.animations.size ≤ a := h.size ▸ Nat.le_of_not_lt hsize
        have hnone : (w.renew (sc.renewal code clock) more es).scene.animations.size ≤ a :=
          (Scene.renew_size.trans h.size).le.trans hle
        rw [Scene.animation_of_size_le hnone, Scene.renewal_of_not_rate]
        all_goals rw [Scene.animation_of_size_le hle]
        nofun
    · exact (congrArg _ (Scene.animation_renew_of_notMem hmore)).trans
        (h.renewed a (ha.resolve_right hmore))
  unchanged a ha := by
    obtain ⟨hnames, hmore⟩ := not_or.mp ha
    exact (congrArg _ (Scene.animation_renew_of_notMem hmore)).trans (h.unchanged a hnames)
  hook a := (Scene.hook_renew a).trans (h.hook a)
  link := h.link
  idle := h.idle

/-- While a link is being read, the links to other animations are as quiet as before. -/
theorem enter {l : LinkId} {here : Link α} (h : w.Stands sc memory code clock names quiet)
    (hl : sc.Unsettled l here) (hself : here.target ∉ quiet) :
    (w.enter l).Stands sc memory code clock names quiet where
  memory := h.memory
  size := h.size
  renewed := h.renewed
  unchanged := h.unchanged
  hook := h.hook
  link m := by
    rw [World.enter, World.modifyLink_scene, Scene.map_setBusy]
    exact h.link m
  idle m there hm hquiet := by
    have hne : l ≠ m := by
      rintro rfl
      obtain rfl : here = there := Option.some.inj (hl.1.symm.trans hm.1)
      exact hself hquiet
    rw [World.enter, World.modifyLink_scene, World.note_scene, Scene.link_modifyLink_of_ne _ hne]
    exact h.idle m there hm hquiet

end World.Stands

/-! ## Acts that render -/

/-- Wherever some rates have been renewed, the act yields the value of the rendering and renews its
rates. -/
structure Act.Renders (host : Host α V M) (sc : Scene α V) (memory : M) (code : Computation α V)
    (clock : Clock α) (quiet : Set AnimationId) (p : Act α V M β) (r : Rendered β) : Prop where
  closed : sc.Closed code clock r.renewed
  yields : ∀ (names : Set AnimationId) (w : World α V M), sc.Closed code clock names →
    w.Stands sc memory code clock names quiet →
    ∃ es, p.Yields host w r.value (w.renew (sc.renewal code clock) r.renewed es)

namespace Act.Renders

variable {host : Host α V M} {p : Act α V M β} {r : Rendered β}

theorem done (b : β) :
    (Act.done b).Renders host sc memory code clock quiet (pure b : Rendered β) where
  closed := Scene.closed_empty
  yields _ _ _ _ := ⟨[], yields_done.mpr ⟨rfl, World.renew_empty⟩⟩

theorem mono (h : p.Renders host sc memory code clock quiet r) (hsub : quiet ⊆ quiet') :
    p.Renders host sc memory code clock quiet' r where
  closed := h.closed
  yields names w hnames hw := h.yields names w hnames (hw.mono hsub)

theorem bind {f : β → Act α V M γ} {g : β → Rendered γ}
    (h : p.Renders host sc memory code clock quiet r)
    (hf : (f r.value).Renders host sc memory code clock quiet (g r.value)) :
    (p.bind f).Renders host sc memory code clock quiet (r >>= g) where
  closed := h.closed.union hf.closed
  yields names w hnames hw := by
    obtain ⟨es, hp⟩ := h.yields names w hnames hw
    obtain ⟨es', hrest⟩ := hf.yields _ _ (hnames.union h.closed) (hw.renew r.renewed es)
    rw [World.renew_renew] at hrest
    exact ⟨es ++ es', hp.bind hrest⟩

/-- An event is taken down first. -/
theorem noted (e : Event α V) (h : p.Renders host sc memory code clock quiet r) :
    (update (·.note e) p).Renders host sc memory code clock quiet r where
  closed := h.closed
  yields names w hnames hw := by
    obtain ⟨es, hp⟩ := h.yields names (w.note e) hnames (hw.note e)
    rw [World.renew_note] at hp
    exact ⟨e :: es, yields_update.mpr hp⟩

theorem routine {q : Routine α V M β} {b : β} (h : q.value? memory = some b) :
    q.perform.Renders host sc memory code clock quiet (pure b : Rendered β) where
  closed := Scene.closed_empty
  yields _ w _ hw := by
    rw [← hw.memory] at h
    have hq : q.perform.Yields host w b w := Routine.yields_of_value? h
    exact ⟨[], World.renew_empty.symm ▸ hq⟩

theorem ask {c : Call α V M} {r : Rendered c.Answer}
    (h : (Evaluate.answer host c).Renders host sc memory code clock quiet r) :
    (Act.ask c).Renders host sc memory code clock quiet r where
  closed := h.closed
  yields names w hnames hw := by
    obtain ⟨es, hanswer⟩ := h.yields names w hnames hw
    exact ⟨es, yields_ask.mpr (Host.answers_iff.mpr hanswer)⟩

/-- An interpolation is given back as it was. -/
theorem borrowing (a : AnimationId) (h : p.Renders host sc memory code clock quiet r) :
    (Evaluate.borrowing a p).Renders host sc memory code clock quiet r where
  closed := h.closed
  yields names w hnames hw := by
    have hlent : (w.modifyAnimation a fun anim =>
        { anim with sampling := anim.sampling + 1 }).Stands sc memory code clock names quiet := by
      refine { hw with size := ?_, renewed := ?_, unchanged := ?_, hook := ?_ }
      · exact (Array.size_modify ..).trans hw.size
      · intro b hb
        exact (Scene.strategy_modifyAnimation (by exact fun _ => rfl) ..).trans (hw.renewed b hb)
      · intro b hb
        exact (Scene.strategy_modifyAnimation (by exact fun _ => rfl) ..).trans (hw.unchanged b hb)
      · intro b
        exact (Scene.hook_modifyAnimation (by exact fun _ => rfl) ..).trans (hw.hook b)
    obtain ⟨es, hp⟩ := h.yields names _ hnames hlent
    refine ⟨es, ?_⟩
    simp only [Evaluate.borrowing, bind_eq_bind, modifyAnimation_bind, yields_update, yields_bind,
      pure_eq_done, yields_done]
    refine ⟨r.value, _, hp, rfl, ?_⟩
    exact congrArg (fun scene => { w.record es with scene := scene }) (Scene.renew_lent a).symm

section Rules

/-! ### Rules -/

variable {a : AnimationId} {s : Strategy α V}

theorem ratio {time : TimeSource α V}
    (hslot : ∀ slot, time = .slot slot → (Act.ask (.read slot clock) : Act α V M α).Renders host sc
      memory code clock quiet (sc.slotFrom code (sc.render code clock) slot)) :
    (Evaluate.ratio (M := M) clock time).Renders host sc memory code clock quiet
      (sc.ratioFrom code clock (sc.render code clock) time) := by
  cases time with
  | slot slot => exact hslot slot rfl
  | pace p => exact done _

theorem chain {segments : List AnimationId}
    (hsegment : ∀ b ∈ segments, (Act.ask (.sample b clock) : Act α V M (Sample α)).Renders host sc
      memory code clock quiet (sc.render code clock b)) :
    (Evaluate.chain (M := M) clock segments).Renders host sc memory code clock quiet
      (Scene.chainFrom (sc.render code clock) segments) := by
  induction segments with
  | nil => exact done _
  | cons segment rest ih =>
      have hhere := hsegment segment List.mem_cons_self
      have hrest := ih fun b hb => hsegment b (List.mem_cons_of_mem _ hb)
      cases rest with
      | nil => exact hhere
      | cons next rest =>
          rw [Scene.chainFrom_cons_cons]
          refine bind hhere ?_
          split
          · exact hrest
          · exact done _

/-- A strategy other than a rate, with its slots and segments. -/
theorem strategy (noRate : ∀ source last current, s ≠ .rate source last current)
    (pure : host.strategy = code.strategy)
    (hslot : ∀ part slot, s.slotAt? part = some slot →
      (Act.ask (.read slot clock) : Act α V M α).Renders host sc memory code clock quiet
        (sc.slotFrom code (sc.render code clock) slot))
    (hsegment : ∀ position b, s.segmentAt? position = some b →
      (Act.ask (.sample b clock) : Act α V M (Sample α)).Renders host sc memory code clock quiet
        (sc.render code clock b)) :
    (Evaluate.strategy host a clock s).Renders host sc memory code clock quiet
      (sc.strategyFrom code clock (sc.render code clock) a s) := by
  cases s with
  | interpolate i =>
      have htime : ∀ slot, i.time = .slot slot →
          (Strategy.interpolate i).slotAt? .time = some slot := by
        intro slot hs
        rw [Strategy.slotAt?, hs]
      refine borrowing a (bind (ratio fun slot hs => hslot .time slot (htime slot hs)) ?_)
      refine bind (hslot .start _ rfl) ?_
      refine bind (hslot .finish _ rfl) ?_
      exact done _
  | bezier points time extend =>
      have htime : ∀ slot, time = .slot slot →
          (Strategy.bezier points time extend).slotAt? .time = some slot := by
        rintro slot rfl
        rfl
      refine bind (ratio fun slot hs => hslot .time slot (htime slot hs)) ?_
      exact done _
  | wrap low high source =>
      refine bind (hslot .low _ rfl) ?_
      refine bind (hslot .high _ rfl) ?_
      refine bind (hslot .source _ rfl) ?_
      exact done _
  | rate source last current => exact absurd rfl (noRate source last current)
  | chain segments =>
      refine chain ?_
      intro b hb
      obtain ⟨position, hposition⟩ := List.mem_iff_getElem?.mp hb
      exact hsegment position b hposition
  | custom s =>
      rw [Evaluate.strategy, pure]
      exact done _

/-- A rate computes only if it was read at another time and has not been renewed since. -/
theorem rate {source : Slot α V} {last : Reading α} {current : α} (acyclic : sc.Acyclic)
    (finite : (clock.time == clock.time) = true)
    (own : (sc.animation a).strategy = .rate source last current)
    (hsource : (Act.ask (.read source clock) : Act α V M α).Renders host sc memory code clock quiet
      (sc.slotFrom code (sc.render code clock) source)) :
    ((Act.animation a).bind fun anim => Evaluate.strategy host a clock anim.strategy).Renders host
      sc memory code clock quiet (sc.render code clock a) := by
  by_cases now : (clock.time == last.time) = true
  · have hrender : sc.render code clock a = pure (.value current) := by
      rw [acyclic.render_eq, own]
      exact if_pos now
    rw [hrender]
    constructor
    · exact Scene.closed_empty
    · intro names w hnames hw
      have hfound := hw.strategy_eq (Scene.renewal_of_rate own now)
      rw [animation_bind]
      refine ⟨[], yields_look.mpr ?_⟩
      rw [hfound, own, Evaluate.strategy, if_pos now]
      exact yields_done.mpr ⟨rfl, World.renew_empty⟩
  · have hrender : sc.render code clock a =
        (sc.slotFrom code (sc.render code clock) source >>= fun v =>
          ⟨.value (last.rate ⟨clock.time, v⟩), {a}⟩) := by
      rw [acyclic.render_eq, own]
      exact if_neg now
    have hrenewal := Scene.renewal_of_stale code own now
    have hclosed : sc.Closed code clock (sc.render code clock a).renewed := by
      intro b hb
      rw [hrender] at hb
      rcases hb with hb | rfl
      · rw [hrender]
        exact (hsource.closed b hb).trans Set.subset_union_left
      · exact subset_rfl
    constructor
    · exact hclosed
    · intro names w hnames hw
      rw [animation_bind]
      simp only [yields_look]
      by_cases ha : a ∈ names
      · -- The rate has been renewed, and all that it comes by with it.
        have hself : w.renew (sc.renewal code clock) (sc.render code clock a).renewed [] = w :=
          World.renew_eq_self fun b hb => hw.renewed b (hnames a ha hb)
        refine ⟨[], ?_⟩
        rw [hself, hw.renewed a ha, hrenewal, Evaluate.strategy, if_pos finite, hrender]
        exact yields_done.mpr ⟨rfl, rfl⟩
      · obtain ⟨es, hread⟩ := hsource.yields names w hnames hw
        refine ⟨es, ?_⟩
        rw [hw.unchanged a ha, own, Evaluate.strategy, if_neg now, hrender]
        refine hread.bind (yields_update.mpr (yields_done.mpr ⟨rfl, ?_⟩))
        have hinsert : ((w.renew (sc.renewal code clock)
            (sc.slotFrom code (sc.render code clock) source).renewed es).modifyAnimation a
              fun anim => { anim with strategy := sc.renewal code clock a }) =
            w.renew (sc.renewal code clock)
              ((sc.slotFrom code (sc.render code clock) source).renewed ∪ {a}) es :=
          World.renew_insert a
        rw [hrenewal] at hinsert
        exact hinsert.symm

theorem found (acyclic : sc.Acyclic) (finite : (clock.time == clock.time) = true)
    (pure : host.strategy = code.strategy)
    (hslot : ∀ part slot, (sc.animation a).strategy.slotAt? part = some slot →
      (Act.ask (.read slot clock) : Act α V M α).Renders host sc memory code clock quiet
        (sc.slotFrom code (sc.render code clock) slot))
    (hsegment : ∀ position b, (sc.animation a).strategy.segmentAt? position = some b →
      (Act.ask (.sample b clock) : Act α V M (Sample α)).Renders host sc memory code clock quiet
        (sc.render code clock b)) :
    ((Act.animation a).bind fun anim => Evaluate.strategy host a clock anim.strategy).Renders host
      sc memory code clock quiet (sc.render code clock a) := by
  by_cases hrate : ∃ source last current, (sc.animation a).strategy = .rate source last current
  · obtain ⟨source, last, current, own⟩ := hrate
    exact rate acyclic finite own (hslot .source source (by rw [own]; rfl))
  · have noRate : ∀ source last current, (sc.animation a).strategy ≠ .rate source last current :=
      fun source last current own => hrate ⟨source, last, current, own⟩
    have hstrategy : (Evaluate.strategy host a clock (sc.animation a).strategy).Renders host sc
        memory code clock quiet (sc.render code clock a) := by
      rw [acyclic.render_eq]
      exact strategy noRate pure hslot hsegment
    constructor
    · exact hstrategy.closed
    · intro names w hnames hw
      obtain ⟨es, hyields⟩ := hstrategy.yields names w hnames hw
      refine ⟨es, ?_⟩
      rw [animation_bind, yields_look, hw.strategy_eq (Scene.renewal_of_not_rate noRate)]
      exact hyields

theorem sample (through : Option LinkId)
    (h : ((Act.animation a).bind fun anim => Evaluate.strategy host a clock anim.strategy).Renders
      host sc memory code clock quiet (sc.render code clock a)) :
    (Evaluate.sample host through a clock).Renders host sc memory code clock quiet
      (sc.render code clock a) := by
  rw [← Rendered.bind_pure (sc.render code clock a)]
  exact noted _ (bind h (noted _ (done _)))

/-- The hook that concludes an evaluation is the one that the scene has. -/
theorem conclude (computes : host.Computes memory code) (l : LinkId) (v : α) :
    ((Act.animation a).bind fun anim =>
      match anim.hook with
      | none => Act.done v
      | some hook => update (·.note (.hookRun hook l v)) (host.hook hook l v).perform).Renders host
        sc memory code clock quiet (pure (sc.conclude code a l (.ended v)) : Rendered α) where
  closed := Scene.closed_empty
  yields names w hnames hw := by
    simp only [animation_bind, yields_look, hw.hook, Scene.conclude]
    cases (sc.animation a).hook with
    | none => exact (done v).yields names w hnames hw
    | some hook => exact (noted _ (routine (computes.hook hook l v))).yields names w hnames hw

theorem evaluateIn (computes : host.Computes memory code) (l : LinkId)
    (h : (Evaluate.sample host (some l) a clock).Renders host sc memory code clock quiet
      (sc.render code clock a)) :
    (Evaluate.evaluateIn host a l clock).Renders host sc memory code clock quiet
      (sc.render code clock a >>= fun s => pure (sc.conclude code a l s)) := by
  refine bind h ?_
  cases (sc.render code clock a).value with
  | value v => exact done v
  | ended v => exact conclude computes l v

/-! ### Reads -/

theorem readConstant (v : α) :
    (Act.ask (.read (.constant v) clock) : Act α V M α).Renders host sc memory code clock quiet
      (sc.slotFrom code (sc.render code clock) (.constant v)) :=
  ask (done v)

theorem readExternal (computes : host.Computes memory code) (source : V.Source) :
    (Act.ask (.read (.external source) clock) : Act α V M α).Renders host sc memory code clock quiet
      (sc.slotFrom code (sc.render code clock) (.external source)) :=
  ask (noted _ (routine (computes.source source)))

/-- The read of a link renders the animation of the link, whose own links are not being read. -/
theorem readLink (acyclic : sc.Acyclic) (l : LinkId)
    (hquiet : ∀ here, sc.Unsettled l here → here.target ∈ quiet ∧ sc.below here.target ⊆ quiet)
    (hevaluate : ∀ here, sc.Unsettled l here →
      (Evaluate.evaluateIn host here.target l clock).Renders host sc memory code clock
        (sc.below here.target)
        (sc.render code clock here.target >>= fun s => pure (sc.conclude code here.target l s))) :
    (Act.ask (.read (.link l) clock) : Act α V M α).Renders host sc memory code clock quiet
      (sc.slotFrom code (sc.render code clock) (.link l)) := by
  have hanswers : ∀ {w w' : World α V M} {v : α}, host.Reads l clock w v w' →
      (Act.ask (.read (.link l) clock) : Act α V M α).Yields host w v w' :=
    fun h => yields_ask.mpr (answers_read_link.mpr h)
  rw [Scene.slotFrom]
  split
  · rename_i hl
    refine ⟨Scene.closed_empty, fun names w _ hw => ⟨[], hanswers ?_⟩⟩
    have hk : w.scene.links[l]? = none := by simpa [hl] using hw.link l
    rw [Host.Reads, hk]
    exact ⟨rfl, World.renew_empty⟩
  · rename_i here hl
    split
    · rename_i v hpin
      refine ⟨Scene.closed_empty, fun names w _ hw => ⟨[], hanswers ?_⟩⟩
      obtain ⟨k, hk, -, hkpin⟩ := Scene.link_of_map_eq (hw.link l) hl
      rw [Host.Reads, hk]
      simp only [hkpin, hpin]
      exact ⟨rfl, World.renew_empty⟩
    · rename_i hpin
      have hinner := hevaluate here ⟨hl, hpin⟩
      obtain ⟨hmem, hbelow⟩ := hquiet here ⟨hl, hpin⟩
      refine ⟨hinner.closed, fun names w hnames hw => ?_⟩
      have entered := (hw.mono hbelow).enter ⟨hl, hpin⟩ (acyclic here.target)
      obtain ⟨es, hy⟩ := hinner.yields names _ hnames entered
      obtain ⟨k, hk, htarget, hkpin⟩ := Scene.link_of_map_eq (hw.link l) hl
      have hidle := hw.idle l here ⟨hl, hpin⟩ hmem
      have hbusy : k.busy = false := by simpa [Scene.link, hk] using hidle
      refine ⟨.readBegan l :: (es ++ [.readFinished l
        (sc.conclude code here.target l (sc.render code clock here.target).value)]), hanswers ?_⟩
      rw [← World.renew_read hidle, Host.Reads, hk]
      simp only [hkpin, hpin, hbusy]
      refine ⟨_, ?_, rfl⟩
      rw [htarget]
      exact Host.answers_iff.mpr hy

end Rules

end Act.Renders

/-! ## Every read -/

namespace Scene

open Act

variable {host : Host α V M}

/-- Every sample is the rendering. The induction goes down along the references. -/
theorem Acyclic.renders (acyclic : sc.Acyclic) (finite : (clock.time == clock.time) = true)
    (computes : host.Computes memory code) (a : AnimationId) (through : Option LinkId) :
    (Evaluate.sample host through a clock).Renders host sc memory code clock (sc.below a)
      (sc.render code clock a) := by
  induction hn : sc.height a using Nat.strongRecOn generalizing a through with
  | ind n ih =>
      have needed : ∀ b, sc.Needs a b → ∀ through,
          (Evaluate.sample host through b clock).Renders host sc memory code clock (sc.below b)
            (sc.render code clock b) :=
        fun b hb through => ih _ (hn ▸ acyclic.height_lt hb) b through rfl
      refine .sample through (.found acyclic finite computes.strategy ?_ ?_)
      · intro part slot hslot
        cases slot with
        | constant v => exact .readConstant v
        | external source => exact .readExternal computes source
        | link l =>
            have hneeds : ∀ here, sc.Unsettled l here → sc.Needs a here.target :=
              fun here hhere => .slot hslot hhere rfl
            refine .readLink acyclic l ?_ ?_
            · intro here hhere
              exact ⟨.single (hneeds here hhere), (hneeds here hhere).below_subset⟩
            · intro here hhere
              exact .evaluateIn computes l (needed here.target (hneeds here hhere) (some l))
      · intro position b hb
        have hneeds : sc.Needs a b := .segment hb
        exact .ask ((needed b hneeds none).mono hneeds.below_subset)

end Scene

/-- Something to look at while the clock stands still. -/
inductive Glance (α : Type) (V : Vocabulary) where
  | read (slot : Slot α V)
  | evaluate (a : AnimationId)
  /-- An animation is evaluated as if it were read through a link. -/
  | evaluateIn (a : AnimationId) (l : LinkId)

/-- What a glance shows, and the rates that are renewed by it. -/
def Scene.glance (sc : Scene α V) (code : Computation α V) (clock : Clock α) :
    Glance α V → Rendered α
  | .read slot => sc.slotFrom code (sc.render code clock) slot
  | .evaluate a => return (← sc.render code clock a).get
  | .evaluateIn a l => return sc.conclude code a l (← sc.render code clock a)

/-- What all glances show, and the rates that are renewed by any of them. -/
def Scene.glanceAll (sc : Scene α V) (code : Computation α V) (clock : Clock α)
    (glances : List (Glance α V)) : Rendered (List α) :=
  ⟨glances.map fun g => (sc.glance code clock g).value,
    {a | ∃ g ∈ glances, a ∈ (sc.glance code clock g).renewed}⟩

theorem Scene.glanceAll_nil : sc.glanceAll code clock [] = pure [] := by
  have hnone : {a | ∃ g ∈ ([] : List (Glance α V)), a ∈ (sc.glance code clock g).renewed} = ∅ := by
    simp
  exact congrArg (Rendered.mk []) hnone

theorem Scene.glanceAll_cons (g : Glance α V) (rest : List (Glance α V)) :
    sc.glanceAll code clock (g :: rest) = do
      let v ← sc.glance code clock g
      let later ← sc.glanceAll code clock rest
      return v :: later := by
  have hboth : {a | ∃ g' ∈ g :: rest, a ∈ (sc.glance code clock g').renewed} =
      (sc.glance code clock g).renewed ∪
        ({a | ∃ g' ∈ rest, a ∈ (sc.glance code clock g').renewed} ∪ ∅) := by
    ext a
    simp
  exact congrArg (Rendered.mk _) hboth

omit [Scalar α] in
def Routine.glance (clock : Clock α) : Glance α V → Routine α V M α
  | .read slot => .ask (.read slot clock)
  | .evaluate a => .evaluate a clock
  | .evaluateIn a l => .ask (.evaluateIn a l clock)

/-- Glances at one thing after the other and gives the values. -/
def Routine.glanceAll (clock : Clock α) : List (Glance α V) → Routine α V M (List α)
  | [] => return []
  | g :: rest => do
    let v ← glance clock g
    let later ← glanceAll clock rest
    return v :: later

theorem Scene.Acyclic.glance {host : Host α V M} (acyclic : sc.Acyclic)
    (finite : (clock.time == clock.time) = true) (computes : host.Computes memory code)
    (g : Glance α V) :
    (Routine.glance clock g).perform.Renders host sc memory code clock Set.univ
      (sc.glance code clock g) := by
  have samples : ∀ a through, (Evaluate.sample host through a clock).Renders host sc memory code
      clock (sc.below a) (sc.render code clock a) := acyclic.renders finite computes
  cases g with
  | read slot =>
      cases slot with
      | constant v => exact .readConstant v
      | external source => exact .readExternal computes source
      | link l =>
          refine .readLink acyclic l ?_ ?_
          · intro here _
            exact ⟨Set.mem_univ _, Set.subset_univ _⟩
          · intro here _
            exact .evaluateIn computes l (samples here.target (some l))
  | evaluate a =>
      have hsample := (samples a none).mono (Set.subset_univ _)
      exact .bind (.ask hsample) (.done _)
  | evaluateIn a l =>
      have hevaluate := Act.Renders.evaluateIn computes l (samples a (some l))
      exact .ask (hevaluate.mono (Set.subset_univ _))

theorem Scene.Acyclic.glanceAll {host : Host α V M} (acyclic : sc.Acyclic)
    (finite : (clock.time == clock.time) = true) (computes : host.Computes memory code)
    (glances : List (Glance α V)) :
    (Routine.glanceAll clock glances).perform.Renders host sc memory code clock Set.univ
      (sc.glanceAll code clock glances) := by
  induction glances with
  | nil =>
      rw [glanceAll_nil]
      exact .done []
  | cons g rest ih =>
      have hperform : (Routine.glanceAll (M := M) clock (g :: rest)).perform =
          (Routine.glance clock g).perform.bind fun v =>
            (Routine.glanceAll clock rest).perform.bind fun later => .done (v :: later) := by
        refine (Routine.perform_bind _ _).trans ?_
        congr 1
        funext v
        exact Routine.perform_bind _ _
      rw [glanceAll_cons, hperform]
      apply (acyclic.glance finite computes g).bind
      apply ih.bind
      exact .done _

/-- In an idle world nothing has been renewed yet. -/
theorem World.stands_self (w : World α V M) (idle : w.scene.Idle) (code : Computation α V)
    (clock : Clock α) : w.Stands w.scene w.memory code clock ∅ Set.univ where
  memory := rfl
  size := rfl
  renewed a ha := absurd ha (Set.notMem_empty a)
  unchanged _ _ := rfl
  hook _ := rfl
  link _ := rfl
  idle l _ _ _ := idle l

open Float.Model in
/-- A finite time equals itself. -/
theorem Clock.time_beq_self {clock : Clock Float} (h : clock.time.isFinite = true) :
    (clock.time == clock.time) = true := by
  show (clock.time.toModel.unpack.beq clock.time.toModel.unpack) = true
  replace h : clock.time.toModel.unpack.isFinite = true := h
  generalize clock.time.toModel.unpack = u at h ⊢
  cases u with
  | infinity sign => exact absurd h Bool.false_ne_true
  | notANumber => exact absurd h Bool.false_ne_true
  | zero sign => rfl
  | finite sign mantissa exponent pos =>
      have hsame : (compare exponent exponent).then (compare mantissa mantissa) = .eq := by simp
      cases sign with
      | positive =>
          show (some ((compare exponent exponent).then (compare mantissa mantissa)) ==
            some .eq) = true
          rw [hsame]
          rfl
      | negative =>
          show (some ((compare exponent exponent).then (compare mantissa mantissa)).swap ==
            some .eq) = true
          rw [hsame]
          rfl

/-- **Reads at one time do not disturb each other.** No animation of an idle world refers to itself,
and host code is pure. The clock stands still at a time that equals itself, as every finite time
does. Slots are read and animations are evaluated in any order and any number of times. All of this
comes to an end. Then there is one value for each thing that is looked at, whatever has been looked
at before it, and there is one scene that is left for each set of things that have been looked at,
whatever their order and however often. The memory of the host is left as it was. -/
theorem reads_undisturbed (host : Host α V M) {w : World α V M} (idle : w.scene.Idle)
    (acyclic : w.scene.Acyclic) {code : Computation α V} (computes : host.Computes w.memory code)
    {clock : Clock α} (finite : (clock.time == clock.time) = true) :
    ∃ (value : Glance α V → α) (left : Set (Glance α V) → Scene α V),
      ∀ glances : List (Glance α V), ∃ es depth, ∀ n, depth ≤ n →
        host.run n (Routine.glanceAll clock glances) w =
          some (glances.map value, { w.record es with scene := left {g | g ∈ glances} }) := by
  refine ⟨fun g => (w.scene.glance code clock g).value,
    fun seen => w.scene.renew (w.scene.renewal code clock)
      {a | ∃ g ∈ seen, a ∈ (w.scene.glance code clock g).renewed}, ?_⟩
  intro glances
  have hrenders := acyclic.glanceAll finite computes glances
  obtain ⟨es, depth, hrun⟩ :=
    hrenders.yields ∅ w Scene.closed_empty (w.stands_self idle code clock)
  exact ⟨es, depth, fun n hn => run_respond_mono hn hrun⟩

end Standing

namespace Speedometer

/-! A strategy of the host that goes by the clock, its rate, the rate of this rate, and an animation
that reads both rates. -/

def vocabulary : Vocabulary := ⟨Empty, Empty, Unit⟩

def host : Host Float vocabulary Unit where
  source := Empty.elim
  hook := Empty.elim
  strategy _ clock := .value (8.0 * clock.time)

def world : World Float vocabulary Unit where
  scene :=
    { animations :=
        #[{ strategy := .custom () },
          { strategy := .rate (.link 0) ⟨0.0, 0.0⟩ 0.0 },
          { strategy := .rate (.link 1) ⟨0.0, 0.0⟩ 0.0 },
          { strategy := .wrap (.constant 0.0) (.link 1) (.link 2) }]
      links := #[{ target := 0 }, { target := 1 }, { target := 2 }, { target := 3 }] }
  memory := ()

theorem target_eq {l : LinkId} {here : Link Float} (h : world.scene.links[l]? = some here) :
    here.target = l := by
  match l with
  | 0 | 1 | 2 | 3 =>
      obtain rfl := Option.some.inj h
      rfl
  | _ + 4 => simp [world] at h

theorem lt_of_slotAt? {a : AnimationId} {part : Part} {l : LinkId}
    (h : (world.scene.animation a).strategy.slotAt? part = some (.link l)) : l < a := by
  match a with
  | 0 => cases part <;> cases h
  | 1 | 2 => cases part <;> cases h; decide
  | 3 => cases part <;> cases h <;> decide
  | _ + 4 => cases part <;> cases h

theorem lt_of_needs {a b : AnimationId} (h : world.scene.Needs a b) : b < a := by
  rcases h with ⟨hslot, hhere, rfl⟩ | hsegment
  · rw [target_eq hhere.1]
    exact lt_of_slotAt? hslot
  · match a with
    | 0 | 1 | 2 | 3 => cases hsegment
    | _ + 4 => simp [world, Scene.animation, Strategy.segmentAt?] at hsegment

/-- What a run to some depth comes to. -/
theorem yields_of_run {p : Act Float vocabulary Unit (List Float)} {values : List Float}
    (depth : Nat) (h : (p.run (respond host depth) world).map Prod.fst = some values) :
    ∃ w', p.Yields host world values w' := by
  obtain ⟨⟨_, w'⟩, hrun, rfl⟩ := Option.map_eq_some_iff.mp h
  exact ⟨w', depth, hrun⟩

/-- The speed is eight and its rate is four, in whatever order they are asked for. -/
theorem reads_eight_and_four : ∃ w₁ w₂,
    (Routine.glanceAll (.startingAt 2.0)
      [.read (.link 3), .evaluate 2, .read (.link 1)]).perform.Yields host world [4.0, 4.0, 8.0] w₁ ∧
    (Routine.glanceAll (.startingAt 2.0) [.read (.link 1), .read (.link 1), .read (.link 3),
      .evaluate 2]).perform.Yields host world [8.0, 8.0, 4.0, 4.0] w₂ ∧
    w₁.scene = w₂.scene := by
  have idle : world.scene.Idle := by
    intro l
    match l with
    | 0 | 1 | 2 | 3 => rfl
    | _ + 4 => rfl
  have acyclic : world.scene.Acyclic := by
    have hlt : ∀ a b, Relation.TransGen world.scene.Needs a b → b < a := by
      intro a b h
      induction h with
      | single h => exact lt_of_needs h
      | tail _ h ih => exact (lt_of_needs h).trans ih
    intro a h
    exact lt_irrefl a (hlt a a h)
  have computes : host.Computes world.memory
      ⟨Empty.elim, Empty.elim, fun _ clock => .value (8.0 * clock.time)⟩ :=
    ⟨fun s => s.elim, fun h => h.elim, rfl⟩
  have finite : ((Clock.startingAt (2.0 : Float)).time == (Clock.startingAt 2.0).time) = true :=
    Clock.time_beq_self (by decide +kernel)
  obtain ⟨value, left, ran⟩ := reads_undisturbed host idle acyclic computes finite
  obtain ⟨es, n, hrun⟩ := ran [.read (.link 3), .evaluate 2, .read (.link 1)]
  obtain ⟨es', n', hrun'⟩ :=
    ran [.read (.link 1), .read (.link 1), .read (.link 3), .evaluate 2]
  obtain ⟨w₁, h₁⟩ : ∃ w₁, (Routine.glanceAll (.startingAt 2.0)
      [.read (.link 3), .evaluate 2, .read (.link 1)]).perform.Yields host world
        [4.0, 4.0, 8.0] w₁ :=
    yields_of_run 9 (by decide +kernel)
  obtain ⟨w₂, h₂⟩ : ∃ w₂, (Routine.glanceAll (.startingAt 2.0) [.read (.link 1), .read (.link 1),
      .read (.link 3), .evaluate 2]).perform.Yields host world [8.0, 8.0, 4.0, 4.0] w₂ :=
    yields_of_run 9 (by decide +kernel)
  refine ⟨w₁, w₂, h₁, h₂, ?_⟩
  obtain ⟨-, rfl⟩ := h₁.unique ⟨n, hrun n (Nat.le_refl n)⟩
  obtain ⟨-, rfl⟩ := h₂.unique ⟨n', hrun' n' (Nat.le_refl n')⟩
  -- The same things have been looked at.
  apply congrArg left
  ext g
  simp only [List.mem_cons, List.not_mem_nil, or_false, Set.mem_ofPred_eq]
  tauto

end Speedometer

end Inbetween
