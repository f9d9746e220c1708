import Inbetween.Proofs.Evaluations
import Inbetween.Proofs.Guards
import Inbetween.Proofs.Paths
import Inbetween.Proofs.Whole

/-!
# Guards follow paths

A guard forgets: once a cycle through a link has been met the guard is down, although the outer read
of the link goes on. This makes no difference to an evaluation as long as the link is not met again
before the outer read ends, and it is not if no second path leads from the link back to itself. Then
reads with guards are what the evaluator without guards makes of them, with the same events, and
they leave everything else as it was.
-/

namespace Inbetween

variable {α : Type} {V : Vocabulary} {M : Type} {β γ : Type}

/-! ## Pure host code -/

/-- The result of a routine that does nothing but recall the memory. -/
def Routine.value? (memory : M) : Routine α V M β → Option β
  | .done b => some b
  | .call .recall next => (next memory).value? memory
  | .call _ _ => none

/-- The code of the host is pure: it computes its results from the memory alone. -/
structure Host.Computes (host : Host α V M) (memory : M) (code : Computation α V) : Prop where
  source : ∀ s, (host.source s).value? memory = some (code.source s)
  hook : ∀ h l v, (host.hook h l v).value? memory = some (code.hook h l v)
  strategy : host.strategy = code.strategy

theorem Routine.yields_of_value? [Scalar α] {host : Host α V M} {w : World α V M}
    {r : Routine α V M β} {b : β} (h : r.value? w.memory = some b) :
    r.perform.Yields host w b w := by
  induction r with
  | done c => simpa [value?, perform, eq_comm] using h
  | call c next ih =>
      cases c with
      | «recall» =>
          have recalled : host.Answers .recall w w.memory w := ⟨1, rfl⟩
          exact Act.yields_call.mpr ⟨w.memory, w, recalled, ih w.memory h⟩
      | _ => simp [value?] at h

/-! ## What an evaluation leaves behind -/

def Event.cutsAt (l : LinkId) : Event α V → Bool
  | .cycleMet m => m == l
  | _ => false

/-- The link after some events. Its guard is lowered if a cycle through it was met. -/
def Link.after (link : Link α) (l : LinkId) (es : List (Event α V)) : Link α :=
  { link with busy := link.busy && !es.any (Event.cutsAt l) }

/-- From one world to the other nothing happens but the given events, and guards are lowered where a
cycle was met. -/
structure World.Follows (w : World α V M) (es : List (Event α V)) (w' : World α V M) : Prop where
  journal : w'.journal.toList = w.journal.toList ++ es
  memory : w'.memory = w.memory
  animations : w'.scene.animations = w.scene.animations
  links : ∀ l : LinkId, w'.scene.links[l]? = w.scene.links[l]?.map (·.after l es)

namespace World.Follows

variable {w w' w'' : World α V M} {es es' : List (Event α V)}

theorem refl (w : World α V M) : w.Follows [] w :=
  ⟨by simp, rfl, rfl, fun l => by simp [Link.after]⟩

theorem trans (h : w.Follows es w') (h' : w'.Follows es' w'') : w.Follows (es ++ es') w'' where
  journal := by rw [h'.journal, h.journal, List.append_assoc]
  memory := h'.memory.trans h.memory
  animations := h'.animations.trans h.animations
  links l := by
    rw [h'.links, h.links, Option.map_map]
    congr 1
    funext link
    simp [Link.after, Bool.and_assoc]

theorem note (w : World α V M) {e : Event α V} (he : ∀ l, e.cutsAt l = false) :
    w.Follows [e] (w.note e) :=
  ⟨by simp, rfl, rfl, fun l => by simp [Link.after, he l]⟩

/-- A cycle is met and the guard is lowered. -/
theorem cut (w : World α V M) (l : LinkId) :
    w.Follows [.cycleMet l]
      ((w.note (.cycleMet l)).modifyLink l fun link => { link with busy := false }) := by
  refine ⟨by simp, rfl, rfl, fun m => ?_⟩
  rw [World.modifyLink_scene, World.note_scene, Scene.modifyLink, Array.getElem?_modify]
  by_cases hm : l = m
  · simp [hm, Link.after, Event.cutsAt]
  · have hne : (l == m) = false := beq_false_of_ne hm
    simp [hm, hne, Link.after, Event.cutsAt]

/-- The read of an idle link raises its guard and lowers it again. -/
theorem read {l : LinkId} (hidle : (w.scene.link l).busy = false) (h : (w.enter l).Follows es w')
    (v : α) : w.Follows (.readBegan l :: (es ++ [.readFinished l v])) (w'.leave l v) := by
  refine ⟨?_, h.memory, h.animations, fun m => ?_⟩
  · simp [World.leave, h.journal, World.enter]
  · simp only [World.leave, World.note_scene, World.modifyLink_scene, Scene.modifyLink,
      Array.getElem?_modify, h.links, World.enter]
    by_cases hm : l = m
    · subst hm
      cases hl : w.scene.links[l]? with
      | none => simp
      | some link =>
          have hb : link.busy = false := by simpa [Scene.link, hl] using hidle
          simp [Link.after, hb]
    · simp [hm, Link.after, Event.cutsAt]

/-- What was lent out is given back. -/
theorem lent {a : AnimationId} (h : (w.modifyAnimation a fun anim =>
    { anim with sampling := anim.sampling + 1 }).Follows es w') :
    w.Follows es (w'.modifyAnimation a fun anim =>
      { anim with sampling := anim.sampling - 1 }) where
  journal := h.journal
  memory := h.memory
  animations := by
    have hlent : w'.scene.animations =
        w.scene.animations.modify a fun anim => { anim with sampling := anim.sampling + 1 } :=
      h.animations
    simp only [World.modifyAnimation_scene, Scene.modifyAnimation, hlent]
    exact Scene.giveBack_lend _ a
  links := h.links

theorem animation (h : w.Follows es w') (a : AnimationId) :
    w'.scene.animation a = w.scene.animation a := by
  rw [Scene.animation, Scene.animation, h.animations]

theorem busy (h : w.Follows es w') (l : LinkId) :
    (w'.scene.link l).busy = ((w.scene.link l).busy && !es.any (Event.cutsAt l)) := by
  rw [Scene.link, Scene.link, h.links]
  cases w.scene.links[l]? <;> simp [Link.after]

end World.Follows

/-! ## Worlds in which guards and path agree -/

/-- For an item from which the given paths lead to links, the guards are as the path says: those off
the path are down, and those on the path to which the item leads are up. Each of these is led to by
one path only. -/
structure World.Ready (sc : Scene α V) (memory : M) (path : Finset LinkId)
    (leads : LinkId → List Part → Prop) (w : World α V M) : Prop where
  memory : w.memory = memory
  strategy : ∀ a, (w.scene.animation a).strategy = (sc.animation a).strategy
  hook : ∀ a, (w.scene.animation a).hook = (sc.animation a).hook
  link : ∀ l : LinkId, w.scene.links[l]?.map (fun k => (k.target, k.pin)) =
    sc.links[l]?.map fun k => (k.target, k.pin)
  idle : ∀ l, l ∉ path → (w.scene.link l).busy = false
  raised : ∀ l ∈ path, ∀ ps, leads l ps → (w.scene.link l).busy = true
  once : ∀ l ∈ path, ∀ ps ps', leads l ps → leads l ps' → ps = ps'

/-- Where cycles are met: at links on the path to which the item leads, and at links that are
reached from themselves. -/
structure Scene.Cuts (sc : Scene α V) (path : Finset LinkId) (leads : LinkId → List Part → Prop)
    (es : List (Event α V)) : Prop where
  onPath : ∀ l ∈ path, es.any (Event.cutsAt l) = true → ∃ ps, leads l ps
  offPath : ∀ l, l ∉ path → es.any (Event.cutsAt l) = true → ∃ ps, sc.Returns l ps

namespace World.Ready

variable {sc : Scene α V} {memory : M} {path : Finset LinkId}
  {leads leads' : LinkId → List Part → Prop} {w w' : World α V M}

/-- An item inside another one. -/
theorem inside (h : w.Ready sc memory path leads) {outer : List Part → List Part}
    (hinj : Function.Injective outer) (hsub : ∀ l ps, leads' l ps → leads l (outer ps)) :
    w.Ready sc memory path leads' :=
  { h with
    raised := fun l hl ps hps => h.raised l hl _ (hsub l ps hps)
    once := fun l hl ps ps' hps hps' => hinj (h.once l hl _ _ (hsub l ps hps) (hsub l ps' hps')) }

theorem note (h : w.Ready sc memory path leads) (e : Event α V) :
    (w.note e).Ready sc memory path leads :=
  { h with }

/-- What comes after some part of an item. The cycles that were met there were met at links to which
the rest does not lead. -/
theorem after {es : List (Event α V)} {sub rest : LinkId → List Part → Prop}
    (h : w.Ready sc memory path leads) (hf : w.Follows es w') (hcuts : sc.Cuts path sub es)
    {outer : List Part → List Part} (hsub : ∀ l ps, sub l ps → leads l (outer ps))
    (hrest : ∀ l ps, rest l ps → leads l ps) (hother : ∀ l ps, ¬ rest l (outer ps)) :
    w'.Ready sc memory path rest where
  memory := hf.memory.trans h.memory
  strategy a := by rw [hf.animation, h.strategy]
  hook a := by rw [hf.animation, h.hook]
  link l := by
    rw [← h.link, hf.links, Option.map_map]
    rfl
  idle l hl := by rw [hf.busy, h.idle l hl, Bool.false_and]
  raised l hl ps hps := by
    rw [hf.busy, h.raised l hl ps (hrest l ps hps), Bool.true_and, Bool.not_eq_true']
    refine Bool.eq_false_iff.mpr ?_
    intro hcut
    -- A guard that was lowered there had a path to it there, and now it has a second one.
    obtain ⟨ps', hps'⟩ := hcuts.onPath l hl hcut
    have heq : outer ps' = ps := h.once l hl _ _ (hsub l ps' hps') (hrest l ps hps)
    exact hother l ps' (heq ▸ hps)
  once l hl ps ps' hps hps' := h.once l hl ps ps' (hrest l ps hps) (hrest l ps' hps')

theorem found (h : w.Ready sc memory path leads) {l : LinkId} {here : Link α}
    (hl : sc.links[l]? = some here) :
    ∃ k, w.scene.links[l]? = some k ∧ k.target = here.target ∧ k.pin = here.pin :=
  Scene.link_of_map_eq (h.link l) hl

/-- A read of a link that is not on the path adds it to the path. -/
theorem enter {m : LinkId} {here : Link α} (h : w.Ready sc memory path (sc.SlotLeads · (.link m)))
    (hm : sc.Unsettled m here) (hfresh : m ∉ path) (honce : sc.ReturnsOnce) :
    (w.enter m).Ready sc memory (insert m path) (sc.AnimationLeads · here.target) where
  memory := h.memory
  strategy := h.strategy
  hook := h.hook
  link l := by
    rw [World.enter, World.modifyLink_scene, Scene.map_setBusy]
    exact h.link l
  idle l hl := by
    obtain ⟨hne, hl⟩ := not_or.mp (mt Finset.mem_insert.mpr hl)
    rw [World.enter, World.modifyLink_scene, World.note_scene, Scene.link_modifyLink_of_ne _
      (Ne.symm hne)]
    exact h.idle l hl
  raised l hl ps hps := by
    obtain ⟨k, hk, -⟩ := h.found hm.1
    refine (Scene.busy_raised _ (Array.getElem?_eq_some_iff.mp hk).1 l).mpr ?_
    rcases Finset.mem_insert.mp hl with rfl | hl
    · exact .inl rfl
    · have hne : m ≠ l := fun heq => hfresh (heq ▸ hl)
      exact .inr (h.raised l hl ps (.through hne hm hps))
  once l hl ps ps' hps hps' := by
    rcases Finset.mem_insert.mp hl with rfl | hl
    · exact honce l ps ps' ⟨here, hm, hps⟩ ⟨here, hm, hps'⟩
    · have hne : m ≠ l := fun heq => hfresh (heq ▸ hl)
      exact h.once l hl ps ps' (.through hne hm hps) (.through hne hm hps')

end World.Ready

namespace Scene.Cuts

variable {sc : Scene α V} {path : Finset LinkId} {leads leads' : LinkId → List Part → Prop}
  {es es' : List (Event α V)}

theorem none (h : ∀ e ∈ es, ∀ l, e.cutsAt l = false) : sc.Cuts path leads es := by
  have hnone : ∀ l, es.any (Event.cutsAt l) = false := by
    intro l
    refine List.any_eq_false.mpr ?_
    intro e he
    simp [h e he l]
  constructor
  · intro l _ hl
    simp [hnone l] at hl
  · intro l _ hl
    simp [hnone l] at hl

theorem single {e : Event α V} (h : ∀ l, e.cutsAt l = false) : sc.Cuts path leads [e] :=
  none (by simpa using h)

theorem append (h : sc.Cuts path leads es) (h' : sc.Cuts path leads es') :
    sc.Cuts path leads (es ++ es') := by
  refine ⟨fun l hl hcut => ?_, fun l hl hcut => ?_⟩
  all_goals
    rw [List.any_append, Bool.or_eq_true] at hcut
    rcases hcut with hcut | hcut
  · exact h.onPath l hl hcut
  · exact h'.onPath l hl hcut
  · exact h.offPath l hl hcut
  · exact h'.offPath l hl hcut

theorem mono (h : sc.Cuts path leads es) (hsub : ∀ l ps, leads l ps → ∃ ps', leads' l ps') :
    sc.Cuts path leads' es :=
  ⟨fun l hl hcut => (h.onPath l hl hcut).elim (hsub l), h.offPath⟩

/-- Cycles through a link that is read are cycles of its own. -/
theorem read {m : LinkId} {here : Link α} (hm : sc.Unsettled m here) (hfresh : m ∉ path)
    (h : sc.Cuts (insert m path) (sc.AnimationLeads · here.target) es) :
    sc.Cuts path (sc.SlotLeads · (.link m)) es where
  onPath l hl hcut := by
    obtain ⟨ps, hps⟩ := h.onPath l (Finset.mem_insert_of_mem hl) hcut
    exact ⟨ps, .through (fun heq => hfresh (heq ▸ hl)) hm hps⟩
  offPath l hl hcut := by
    by_cases heq : l = m
    · subst heq
      obtain ⟨ps, hps⟩ := h.onPath l (Finset.mem_insert_self l path) hcut
      exact ⟨ps, here, hm, hps⟩
    · exact h.offPath l (by simp [heq, hl]) hcut

end Scene.Cuts

/-! ## Faithful acts -/

/-- Wherever guards and path agree, the act yields the value of the evaluation along the path and
brings about its events. -/
structure Act.Faithful [Scalar α] (host : Host α V M) (sc : Scene α V) (memory : M)
    (path : Finset LinkId) (leads : LinkId → List Part → Prop) (p : Act α V M β)
    (t : Traced α V β) : Prop where
  yields : ∀ w : World α V M, w.Ready sc memory path leads →
    ∃ w', p.Yields host w t.value w' ∧ w.Follows t.events w'
  cuts : sc.Cuts path leads t.events

namespace Act.Faithful

variable [Scalar α] {host : Host α V M} {sc : Scene α V} {memory : M} {path : Finset LinkId}
  {leads leads' : LinkId → List Part → Prop} {p : Act α V M β} {t : Traced α V β}

theorem done (b : β) :
    (Act.done b).Faithful host sc memory path leads (pure b : Traced α V β) where
  yields w _ := ⟨w, yields_done.mpr ⟨rfl, rfl⟩, .refl w⟩
  cuts := .none (by simp)

/-- An item that makes up another one. -/
theorem inside (h : p.Faithful host sc memory path leads t) {outer : List Part → List Part}
    (hinj : Function.Injective outer) (hsub : ∀ l ps, leads l ps → leads' l (outer ps)) :
    p.Faithful host sc memory path leads' t where
  yields w hw := h.yields w (hw.inside hinj hsub)
  cuts := h.cuts.mono fun l ps hps => ⟨outer ps, hsub l ps hps⟩

/-- The paths that do not begin with a part. -/
def Without (part : Part) (leads : LinkId → List Part → Prop) (l : LinkId) (ps : List Part) :
    Prop :=
  leads l ps ∧ ps.head? ≠ some part

/-- A part of an item, and then the rest of it. -/
theorem bind {sub : LinkId → List Part → Prop} {f : β → Act α V M γ} {g : β → Traced α V γ}
    (part : Part) (h : p.Faithful host sc memory path sub t)
    (hsub : ∀ l ps, sub l ps → leads l (part :: ps))
    (hrest : (f t.value).Faithful host sc memory path (Without part leads) (g t.value)) :
    (p.bind f).Faithful host sc memory path leads (t >>= g) where
  yields w hw := by
    have hpart : w.Ready sc memory path sub :=
      hw.inside (List.cons_injective (a := part)) hsub
    obtain ⟨w₁, hy₁, hf₁⟩ := h.yields w hpart
    have hw₁ : w₁.Ready sc memory path (Without part leads) := by
      refine hw.after hf₁ h.cuts hsub ?_ ?_
      · intro l ps hps
        exact hps.1
      · intro l ps hps
        exact hps.2 rfl
    obtain ⟨w₂, hy₂, hf₂⟩ := hrest.yields w₁ hw₁
    exact ⟨w₂, hy₁.bind hy₂, hf₁.trans hf₂⟩
  cuts := by
    refine Scene.Cuts.append ?_ ?_
    · exact h.cuts.mono fun l ps hps => ⟨part :: ps, hsub l ps hps⟩
    · exact hrest.cuts.mono fun l ps hps => ⟨ps, hps.1⟩

/-- An interpolation is given back as it was. -/
theorem borrowing (a : AnimationId) (h : p.Faithful host sc memory path leads t) :
    (Evaluate.borrowing a p).Faithful host sc memory path leads t where
  yields w hw := by
    have hw₁ : (w.modifyAnimation a fun anim => { anim with sampling := anim.sampling + 1 }).Ready
        sc memory path leads := by
      refine { hw with strategy := fun b => ?_, hook := fun b => ?_ }
      · exact (Scene.strategy_modifyAnimation (by exact fun _ => rfl) ..).trans (hw.strategy b)
      · exact (Scene.hook_modifyAnimation (by exact fun _ => rfl) ..).trans (hw.hook b)
    obtain ⟨w₂, hy, hf⟩ := h.yields _ hw₁
    refine ⟨w₂.modifyAnimation a fun anim => { anim with sampling := anim.sampling - 1 }, ?_, ?_⟩
    · simp only [Evaluate.borrowing, bind_eq_bind, modifyAnimation_bind, yields_update,
        yields_bind, pure_eq_done, yields_done]
      exact ⟨t.value, w₂, hy, rfl, rfl⟩
    · exact hf.lent
  cuts := h.cuts

variable {clock : Clock α} {code : Computation α V} {steady : sc.Steady}

theorem ratio
    (hread : ∀ s, (ask (.read s clock) : Act α V M α).Faithful host sc memory path
      (sc.SlotLeads · s) (sc.readAlong steady code clock path s))
    (time : TimeSource α V) :
    (Evaluate.ratio (M := M) clock time).Faithful host sc memory path
      (fun l ps => ∃ s, time = .slot s ∧ sc.SlotLeads l s ps)
      (sc.ratioAlong steady code clock path time) := by
  cases time with
  | slot s =>
      rw [Scene.ratioAlong]
      exact (hread s).inside Function.injective_id fun l ps h => ⟨s, rfl, h⟩
  | pace p =>
      rw [Scene.ratioAlong]
      exact done _

theorem interpolation {a : AnimationId} {i : Interpolation α V}
    (hread : ∀ s, (ask (.read s clock) : Act α V M α).Faithful host sc memory path
      (sc.SlotLeads · s) (sc.readAlong steady code clock path s))
    (own : (sc.animation a).strategy = .interpolate i) :
    (Evaluate.interpolation (M := M) clock i).Faithful host sc memory path
      (sc.AnimationLeads · a) (sc.strategyAlong steady code clock path a _ own) := by
  rw [Scene.strategyAlong]
  refine bind .time (ratio hread i.time) ?_ (bind .start (hread i.start) ?_
    (bind .finish (hread i.finish) ?_ (done _)))
  · rintro l ps ⟨s, hs, h⟩
    exact .slot (by rw [own, Strategy.slotAt?, hs]) h
  · exact fun l ps h => ⟨.slot (by rw [own]; rfl) h, by simp⟩
  · exact fun l ps h => ⟨⟨.slot (by rw [own]; rfl) h, by simp⟩, by simp⟩

/-- Each position of a chain is a part of its own. -/
theorem chain {a : AnimationId} (segments : List AnimationId) (older : ∀ s ∈ segments, s < a)
    (hsegment : ∀ s ∈ segments, (ask (.sample s clock) : Act α V M (Sample α)).Faithful host sc
      memory path (sc.AnimationLeads · s) (sc.sampleAlong steady code clock path s none))
    (first : Nat) (leads : LinkId → List Part → Prop)
    (hsub : ∀ (position : Nat) s, segments[position]? = some s → ∀ l ps, sc.AnimationLeads l s ps →
      leads l (.segment (first + position) :: ps)) :
    (Evaluate.chain (M := M) clock segments).Faithful host sc memory path leads
      (sc.chainAlong steady code clock path a segments older) := by
  induction segments generalizing first leads with
  | nil =>
      rw [Scene.chainAlong]
      exact done _
  | cons segment rest ih =>
      have hhere := hsegment segment List.mem_cons_self
      cases rest with
      | nil =>
          rw [Scene.chainAlong]
          exact hhere.inside (List.cons_injective (a := .segment first))
            fun l ps h => hsub 0 segment rfl l ps h
      | cons next rest =>
          rw [Scene.chainAlong]
          refine bind (.segment first) hhere (fun l ps h => hsub 0 segment rfl l ps h) ?_
          split
          · refine ih (fun s hs => older s (List.mem_cons_of_mem _ hs))
              (fun s hs => hsegment s (List.mem_cons_of_mem _ hs)) (first + 1) _ ?_
            intro position s hs l ps h
            refine ⟨?_, by simp; omega⟩
            rw [Nat.add_assoc, Nat.add_comm 1]
            exact hsub (position + 1) s hs l ps h
          · exact done _

theorem strategy {a : AnimationId}
    (hread : ∀ s, (ask (.read s clock) : Act α V M α).Faithful host sc memory path
      (sc.SlotLeads · s) (sc.readAlong steady code clock path s))
    (hsegment : ∀ s, s < a → (ask (.sample s clock) : Act α V M (Sample α)).Faithful host sc
      memory path (sc.AnimationLeads · s) (sc.sampleAlong steady code clock path s none))
    (pure : host.strategy = code.strategy) (s : Strategy α V)
    (own : (sc.animation a).strategy = s) :
    (Evaluate.strategy host a clock s).Faithful host sc memory path (sc.AnimationLeads · a)
      (sc.strategyAlong steady code clock path a s own) := by
  cases s with
  | interpolate i => exact borrowing a (interpolation hread own)
  | bezier points time extend =>
      rw [Scene.strategyAlong]
      refine bind .time (ratio hread time) ?_ (done _)
      rintro l ps ⟨s, hs, h⟩
      exact .slot (by rw [own, hs]; rfl) h
  | wrap low high source =>
      rw [Scene.strategyAlong]
      refine bind .low (hread low) ?_ (bind .high (hread high) ?_
        (bind .source (hread source) ?_ (done _)))
      · exact fun l ps h => .slot (by rw [own]; rfl) h
      · exact fun l ps h => ⟨.slot (by rw [own]; rfl) h, by simp⟩
      · exact fun l ps h => ⟨⟨.slot (by rw [own]; rfl) h, by simp⟩, by simp⟩
  | rate source last current => exact (steady.noRate a source last current own).elim
  | chain segments =>
      rw [Scene.strategyAlong]
      refine chain segments _ (fun s hs => hsegment s (steady.older a segments own s hs)) 0 _ ?_
      intro position s hs l ps h
      refine .segment ?_ h
      rw [own, Nat.zero_add]
      exact hs
  | custom s =>
      rw [Scene.strategyAlong, ← pure]
      exact done _

theorem sample {a : AnimationId} (through : Option LinkId)
    (h : (Evaluate.strategy host a clock (sc.animation a).strategy).Faithful host sc memory path
      leads (sc.strategyAlong steady code clock path a _ rfl)) :
    (Evaluate.sample host through a clock).Faithful host sc memory path leads
      (sc.sampleAlong steady code clock path a through) where
  yields w hw := by
    obtain ⟨w₁, hy, hf⟩ := h.yields _ (hw.note (.sampleBegan a through))
    rw [Scene.sampleAlong]
    refine ⟨_, yields_sample_iff.mpr ⟨w₁, (hw.strategy a).symm ▸ hy, rfl⟩, ?_⟩
    exact (World.Follows.note w fun _ => rfl).trans (hf.trans (World.Follows.note w₁ fun _ => rfl))
  cuts := by
    rw [Scene.sampleAlong]
    exact (Scene.Cuts.single fun _ => rfl).append (h.cuts.append (.single fun _ => rfl))

theorem evaluateIn {a : AnimationId} {l : LinkId} (computes : host.Computes memory code)
    (h : (Evaluate.sample host (some l) a clock).Faithful host sc memory path leads
      (sc.sampleAlong steady code clock path a (some l))) :
    (Evaluate.evaluateIn host a l clock).Faithful host sc memory path leads
      (sc.evaluateAlong steady code clock path a l) where
  yields w hw := by
    obtain ⟨w₁, hy, hf⟩ := h.yields w hw
    have hhook : (w₁.scene.animation a).hook = (sc.animation a).hook := by
      rw [hf.animation, hw.hook]
    rw [Scene.evaluateAlong, Traced.bind_value, Traced.bind_events]
    generalize (sc.sampleAlong steady code clock path a (some l)).value = s at hy ⊢
    cases s with
    | value v =>
        exact ⟨w₁, yields_evaluateIn.mpr ⟨.value v, w₁, hy, rfl, rfl⟩, hf.trans (.refl w₁)⟩
    | ended v =>
        cases hh : (sc.animation a).hook with
        | none =>
            refine ⟨w₁, yields_evaluateIn.mpr ⟨.ended v, w₁, hy, ?_⟩, hf.trans (.refl w₁)⟩
            rw [Host.Concludes, hhook, hh]
            exact ⟨rfl, rfl⟩
        | some hook =>
            have hcode := computes.hook hook l v
            rw [← hw.memory, ← hf.memory] at hcode
            refine ⟨w₁.note (.hookRun hook l v),
              yields_evaluateIn.mpr ⟨.ended v, w₁, hy, ?_⟩, hf.trans (.note w₁ fun _ => rfl)⟩
            rw [Host.Concludes, hhook, hh]
            exact Routine.yields_of_value? (w := w₁.note _) hcode
  cuts := by
    rw [Scene.evaluateAlong, Traced.bind_events]
    refine h.cuts.append (.none ?_)
    intro e he m
    split at he
    · cases he
    · split at he
      · cases he
      · obtain rfl : e = _ := List.mem_singleton.mp he
        rfl

/-! ### Reads -/

theorem readConstant (v : α) :
    (ask (.read (.constant v) clock) : Act α V M α).Faithful host sc memory path leads
      (sc.readAlong steady code clock path (.constant v)) := by
  rw [Scene.readAlong]
  exact ⟨fun w _ => ⟨w, yields_ask.mpr ⟨1, rfl⟩, .refl w⟩, .none (by simp)⟩

theorem readExternal (computes : host.Computes memory code) (s : V.Source) :
    (ask (.read (.external s) clock) : Act α V M α).Faithful host sc memory path leads
      (sc.readAlong steady code clock path (.external s)) := by
  rw [Scene.readAlong]
  refine ⟨fun w hw => ?_, .single fun _ => rfl⟩
  have hcode := computes.source s
  rw [← hw.memory] at hcode
  refine ⟨w.note (.sourceRead s), yields_ask.mpr (Host.answers_iff.mpr ?_), .note w fun _ => rfl⟩
  exact Routine.yields_of_value? (w := w.note _) hcode

theorem readLink (honce : sc.ReturnsOnce) (l : LinkId)
    (hevaluate : ∀ here, sc.Unsettled l here → l ∉ path →
      (Evaluate.evaluateIn host here.target l clock).Faithful host sc memory (insert l path)
        (sc.AnimationLeads · here.target)
        (sc.evaluateAlong steady code clock (insert l path) here.target l)) :
    (ask (.read (.link l) clock) : Act α V M α).Faithful host sc memory path
      (sc.SlotLeads · (.link l)) (sc.readAlong steady code clock path (.link l)) := by
  have hanswers : ∀ {w w' : World α V M} {v : α}, host.Reads l clock w v w' →
      (ask (.read (.link l) clock) : Act α V M α).Yields host w v w' :=
    fun h => yields_ask.mpr (answers_read_link.mpr h)
  rw [Scene.readAlong]
  split
  · rename_i hl
    refine ⟨fun w hw => ⟨w, hanswers ?_, .refl w⟩, .none (by simp)⟩
    have hk : w.scene.links[l]? = none := by simpa [hl] using hw.link l
    rw [Host.Reads, hk]
    exact ⟨rfl, rfl⟩
  · rename_i here hl
    split
    · rename_i v hpin
      refine ⟨fun w hw => ⟨w, hanswers ?_, .refl w⟩, .none (by simp)⟩
      obtain ⟨k, hk, -, hkpin⟩ := hw.found hl
      rw [Host.Reads, hk]
      simp [hkpin, hpin]
    · rename_i hpin
      split
      · rename_i hmem
        -- The link is on the path, and leads to itself, so its guard is up.
        refine ⟨fun w hw => ⟨_, hanswers ?_, .cut w l⟩, ?_⟩
        · obtain ⟨k, hk, -, hkpin⟩ := hw.found hl
          have hbusy : k.busy = true := by
            simpa [Scene.link, hk] using hw.raised l hmem [] .here
          rw [Host.Reads, hk]
          simp [hkpin, hpin, hbusy]
        · refine ⟨fun m hm hcut => ?_, fun m hm hcut => ?_⟩
          all_goals obtain rfl : l = m := by simpa [Event.cutsAt] using hcut
          · exact ⟨[], .here⟩
          · exact absurd hmem hm
      · rename_i hfresh
        -- The link is not on the path, so its guard is down and its animation is evaluated.
        have hinner := hevaluate here ⟨hl, hpin⟩ hfresh
        refine ⟨fun w hw => ?_, ?_⟩
        · obtain ⟨w₁, hy, hf⟩ := hinner.yields _ (hw.enter ⟨hl, hpin⟩ hfresh honce)
          obtain ⟨k, hk, htarget, hkpin⟩ := hw.found hl
          have hidle := hw.idle l hfresh
          refine ⟨_, hanswers ?_, hf.read hidle _⟩
          have hbusy : k.busy = false := by simpa [Scene.link, hk] using hidle
          rw [Host.Reads, hk]
          simp only [hkpin, hpin, hbusy]
          refine ⟨w₁, ?_, rfl⟩
          rw [htarget]
          exact Host.answers_iff.mpr hy
        · refine (Scene.Cuts.single fun _ => rfl).append ?_
          exact (hinner.cuts.read ⟨hl, hpin⟩ hfresh).append (.single fun _ => rfl)

end Act.Faithful

/-! ## Every evaluation -/

namespace Scene

open Act

variable [Scalar α] {host : Host α V M} {sc : Scene α V} {memory : M} {code : Computation α V}

/-- On every path, reads and samples are what the evaluator without guards makes of them. The
induction adds a link to the path before it goes on with the animation of the link, and comes to
older animations as long as the path stays. -/
theorem faithful (steady : sc.Steady) (once : sc.ReturnsOnce) (computes : host.Computes memory code)
    (clock : Clock α) (path : Finset LinkId) :
    (∀ s, (ask (.read s clock) : Act α V M α).Faithful host sc memory path (sc.SlotLeads · s)
      (sc.readAlong steady code clock path s)) ∧
    ∀ a through, (Evaluate.sample host through a clock).Faithful host sc memory path
      (sc.AnimationLeads · a) (sc.sampleAlong steady code clock path a through) := by
  induction hn : sc.room path using Nat.strongRecOn generalizing path with
  | ind n ih =>
      have reads : ∀ s, (ask (.read s clock) : Act α V M α).Faithful host sc memory path
          (sc.SlotLeads · s) (sc.readAlong steady code clock path s) := by
        intro s
        cases s with
        | constant v => exact .readConstant v
        | external s => exact .readExternal computes s
        | link l =>
            refine .readLink once l ?_
            intro here hl hfresh
            have hroom : sc.room (insert l path) < n := hn ▸ sc.room_insert hl.1 hfresh
            have hsample := (ih _ hroom (insert l path) rfl).2 here.target (some l)
            exact .evaluateIn computes hsample
      refine ⟨reads, fun a => ?_⟩
      induction a using Nat.strongRecOn with
      | ind a iha =>
          intro through
          have segments : ∀ s, s < a → (ask (.sample s clock) : Act α V M (Sample α)).Faithful host
              sc memory path (sc.AnimationLeads · s)
              (sc.sampleAlong steady code clock path s none) := by
            intro s hs
            have h := iha s hs none
            refine ⟨?_, h.cuts⟩
            intro w hw
            obtain ⟨w', hy, hf⟩ := h.yields w hw
            exact ⟨w', yields_ask.mpr (Host.answers_iff.mpr hy), hf⟩
          exact .sample through (.strategy reads segments computes.strategy _ rfl)

end Scene

/-- The world with more events noted. -/
def World.record (w : World α V M) (es : List (Event α V)) : World α V M :=
  { w with journal := w.journal ++ es.toArray }

/-- What follows is told by its events, except for the guards. -/
theorem World.Follows.eq_record_of_links {w w' : World α V M} {es : List (Event α V)}
    (h : w.Follows es w') (hlinks : w'.scene.links = w.scene.links) : w' = w.record es := by
  have hjournal : w'.journal = w.journal ++ es.toArray := Array.ext' (by simp [h.journal])
  obtain ⟨⟨animations, links⟩, memory, journal⟩ := w'
  obtain rfl : animations = _ := h.animations
  obtain rfl : links = _ := hlinks
  obtain rfl : memory = _ := h.memory
  obtain rfl : journal = _ := hjournal
  rfl

theorem World.Follows.eq_record {w w' : World α V M} {es : List (Event α V)} (h : w.Follows es w')
    (idle : w.scene.Idle) : w' = w.record es := by
  -- No guard was up, so none was lowered.
  have hlinks : w'.scene.links = w.scene.links := by
    refine Array.ext_getElem? ?_
    intro l
    rw [h.links]
    cases hl : w.scene.links[l]? with
    | none => rfl
    | some link =>
        obtain ⟨target, busy, pin⟩ := link
        obtain rfl : busy = false := by simpa [Scene.link, hl] using idle l
        rfl
  exact h.eq_record_of_links hlinks

theorem World.ready (w : World α V M) (idle : w.scene.Idle)
    (leads : LinkId → List Part → Prop) : w.Ready w.scene w.memory ∅ leads :=
  ⟨rfl, fun _ => rfl, fun _ => rfl, fun _ => rfl, fun l _ => idle l, by simp, by simp⟩

theorem Act.Faithful.eventually [Scalar α] {host : Host α V M} {w : World α V M} {c : Call α V M}
    {leads : LinkId → List Part → Prop} {t : Traced α V c.Answer} (idle : w.scene.Idle)
    (h : (Evaluate.answer host c).Faithful host w.scene w.memory ∅ leads t) :
    ∃ depth, ∀ n, depth ≤ n → respond host n c w = some (t.value, w.record t.events) := by
  obtain ⟨w', hy, hf⟩ := h.yields w (w.ready idle leads)
  rw [← hf.eq_record idle]
  exact (Host.answers_iff.mpr hy).eventually

/-- A warning is given for links that can be reached from themselves, and for no others. -/
theorem Scene.Cuts.returns {sc : Scene α V} {leads : LinkId → List Part → Prop}
    {es : List (Event α V)} (h : sc.Cuts ∅ leads es) {l : LinkId} (hl : .cycleMet l ∈ es) :
    ∃ ps, sc.Returns l ps :=
  h.offPath l (by simp) (List.any_eq_true.mpr ⟨_, hl, by simp [Event.cutsAt]⟩)

/-- **Guards follow paths.** Let no link be reached from itself along two different paths, and all
guards be down. Then every read, every sample and every evaluation comes to an end, and it is the
one of the evaluator without guards: the same value, and the same events in the same order, among
them the reads of sources, the hook runs with their links and end values, and the warnings. Nothing
else is left behind. Warnings are only given for links that can be reached from themselves. -/
theorem evaluations_follow_paths [Scalar α] (host : Host α V M) {w : World α V M}
    (idle : w.scene.Idle) (steady : w.scene.Steady) (once : w.scene.ReturnsOnce)
    {code : Computation α V} (computes : host.Computes w.memory code) (clock : Clock α) :
    (∀ slot, ∃ depth, ∀ n, depth ≤ n → respond host n (.read slot clock) w =
      some ((w.scene.readAlong steady code clock ∅ slot).value,
        w.record (w.scene.readAlong steady code clock ∅ slot).events)) ∧
    (∀ a, ∃ depth, ∀ n, depth ≤ n → respond host n (.sample a clock) w =
      some ((w.scene.sampleAlong steady code clock ∅ a none).value,
        w.record (w.scene.sampleAlong steady code clock ∅ a none).events)) ∧
    (∀ a, ∃ depth, ∀ n, depth ≤ n → host.run n (Routine.evaluate a clock) w =
      some ((w.scene.sampleAlong steady code clock ∅ a none).value.get,
        w.record (w.scene.sampleAlong steady code clock ∅ a none).events)) ∧
    (∀ a l, ∃ depth, ∀ n, depth ≤ n → respond host n (.evaluateIn a l clock) w =
      some ((w.scene.evaluateAlong steady code clock ∅ a l).value,
        w.record (w.scene.evaluateAlong steady code clock ∅ a l).events)) ∧
    ∀ m, (∀ path, ¬ w.scene.Returns m path) →
      (∀ slot, .cycleMet m ∉ (w.scene.readAlong steady code clock ∅ slot).events) ∧
      (∀ a, .cycleMet m ∉ (w.scene.sampleAlong steady code clock ∅ a none).events) ∧
      ∀ a l, .cycleMet m ∉ (w.scene.evaluateAlong steady code clock ∅ a l).events := by
  have all := Scene.faithful steady once computes clock ∅
  have evaluations := fun a l => Act.Faithful.evaluateIn computes (all.2 a (some l))
  have reads : ∀ slot, (Evaluate.answer host (.read slot clock)).Faithful host w.scene w.memory ∅
      (w.scene.SlotLeads · slot) (w.scene.readAlong steady code clock ∅ slot) := by
    intro slot
    refine ⟨?_, (all.1 slot).cuts⟩
    intro w₁ hw₁
    obtain ⟨w₂, hy, hf⟩ := (all.1 slot).yields w₁ hw₁
    exact ⟨w₂, Host.answers_iff.mp (Act.yields_ask.mp hy), hf⟩
  have samples : ∀ a, ∃ depth, ∀ n, depth ≤ n → respond host n (.sample a clock) w =
      some ((w.scene.sampleAlong steady code clock ∅ a none).value,
        w.record (w.scene.sampleAlong steady code clock ∅ a none).events) :=
    fun a => Act.Faithful.eventually (c := .sample a clock) idle (all.2 a none)
  refine ⟨fun slot => (reads slot).eventually idle, samples, fun a => ?_,
    fun a l => Act.Faithful.eventually (c := .evaluateIn a l clock) idle (evaluations a l),
    fun m hm => ⟨fun slot h => ?_, fun a h => ?_, fun a l h => ?_⟩⟩
  · obtain ⟨depth, h⟩ := samples a
    refine ⟨depth, ?_⟩
    intro n hn
    -- An evaluation is the value of a single sample.
    show Act.run (respond host n) (.call (.sample a clock) fun s => .done s.get) w = _
    simp only [Act.run, h n hn]
  · exact (Scene.Cuts.returns (reads slot).cuts h).elim hm
  · exact (Scene.Cuts.returns (all.2 a none).cuts h).elim hm
  · exact (Scene.Cuts.returns (evaluations a l).cuts h).elim hm

namespace Whirl

/-! An interpolation that reads itself for its time ratio. -/

def vocabulary : Vocabulary := ⟨Empty, Empty, Empty⟩

def host : Host Int vocabulary Unit where
  source := Empty.elim
  hook := Empty.elim
  strategy := Empty.elim

def code : Computation Int vocabulary where
  source := Empty.elim
  hook := Empty.elim
  strategy := Empty.elim

def itself : Interpolation Int vocabulary where
  start := .constant 10
  finish := .constant 20
  time := .slot (.link 0)
  extend := .extrapolate

def world : World Int vocabulary Unit where
  scene := { animations := #[{ strategy := .interpolate itself }], links := #[{ target := 0 }] }
  memory := ()

theorem strategy_eq (a : AnimationId) :
    (world.scene.animation a).strategy = if a = 0 then .interpolate itself else .chain [] := by
  cases a with
  | zero => rfl
  | succ a => rfl

theorem steady : world.scene.Steady := by
  refine ⟨fun a source last current h => ?_, fun a segments h s hs => ?_⟩
  all_goals
    rw [strategy_eq] at h
    split at h
    all_goals cases h
  cases hs

/-- The one way back to the link is through the time ratio. -/
theorem path_eq {l : LinkId} {path : List Part} (h : world.scene.Returns l path) :
    path = [.time] := by
  obtain ⟨here, ⟨found, -⟩, leads⟩ := h
  cases l with
  | succ l => simp [world] at found
  | zero =>
      obtain rfl : { target := 0 } = here := Option.some.inj found
      cases leads with
      | segment hsegment leads => cases hsegment
      | slot hslot leads =>
          rename_i part s rest
          cases part with
          | time =>
              obtain rfl : .link 0 = s := Option.some.inj hslot
              cases leads with
              | here => rfl
              | through hne _ _ => exact absurd rfl hne
          | start =>
              obtain rfl : .constant 10 = s := Option.some.inj hslot
              cases leads
          | finish =>
              obtain rfl : .constant 20 = s := Option.some.inj hslot
              cases leads
          | _ => cases hslot

/-- The inner read of the link is zero, so the inner sample is the start, and the outer one is taken
at this ratio. There is one warning. -/
theorem reads_zero_once :
    (world.scene.sampleAlong steady code .new ∅ 0 none).value.get = 110 ∧
    ((world.scene.sampleAlong steady code .new ∅ 0 none).events.filter fun e =>
      e.cutsAt 0).length = 1 := by
  have idle : world.scene.Idle := by
    intro l
    cases l with
    | zero => rfl
    | succ l => rfl
  have once : world.scene.ReturnsOnce := by
    intro l path path' h h'
    exact (path_eq h).trans (path_eq h').symm
  have computes : host.Computes world.memory code :=
    ⟨fun s => s.elim, fun h => h.elim, funext fun s => s.elim⟩
  obtain ⟨depth, h⟩ := (evaluations_follow_paths host idle steady once computes .new).2.1 0
  have followed : host.Answers (.sample 0 .new) world _ _ := ⟨depth, h depth (Nat.le_refl depth)⟩
  have ran : ∃ s w', host.Answers (.sample 0 .new) world s w' ∧ s.get = 110 ∧
      (w'.journal.toList.filter fun e => e.cutsAt 0).length = 1 :=
    ⟨_, _, ⟨4, rfl⟩, rfl, rfl⟩
  obtain ⟨s, w', hrun, hvalue, hcuts⟩ := ran
  obtain ⟨rfl, rfl⟩ := hrun.unique followed
  exact ⟨hvalue, by simpa [World.record, world] using hcuts⟩

end Whirl

end Inbetween
