import Inbetween.Proofs.Playback
import Inbetween.Proofs.Recordings

/-!
# Rates of change

A rate reads its source when it is made and at every evaluation at a new time, and what it reports
there is the change since the reading before. It may be evaluated anywhere and at any time, forward
or back, and its source may change meanwhile, also while the clock stands still. No change is lost
or counted twice: without rounding, the reported rates over their time steps add up to the whole
change of the source.

The invariant is what the rate keeps, its last reading and its last report. Only evaluations of the
rate renew it, and what an evaluation does can be told from it.
-/

namespace Inbetween

open Act Evaluate

variable {α : Type} {V : Vocabulary} {M : Type} {β γ : Type}

/-! ## What a rate keeps -/

/-- The last reading of a rate, and what it has reported since. -/
structure Gauge (α : Type) where
  last : Reading α
  report : α

/-- The reading that was taken for an evaluation. -/
def Evaluation.reading? (e : Evaluation α V M) : Option (Reading α) :=
  match e.calls with
  | [⟨.read _ _, v⟩] => some ⟨e.clock.time, v⟩
  | _ => none

namespace Gauge

/-- An evaluation that takes a reading renews the gauge, and any other leaves it as it is. -/
def after (g : Gauge α) (e : Evaluation α V M) : Gauge α :=
  match e.reading? with
  | some reading => ⟨reading, e.report⟩
  | none => g

def afterAll (g : Gauge α) (es : List (Evaluation α V M)) : Gauge α := es.foldl after g

/-- What an evaluation is like by the gauge that it finds. If the clock shows the time of the last
reading, nothing is called and the report stays. At any other time the source is read, once and with
the clock of the evaluation, and the report is the rate since the last reading. -/
def Governs [Scalar α] (g : Gauge α) (source : Slot α V) (e : Evaluation α V M) : Prop :=
  if e.clock.time == g.last.time then e.calls = [] ∧ e.report = g.report
  else ∃ v, e.calls = [⟨.read source e.clock, v⟩] ∧ e.report = g.last.rate ⟨e.clock.time, v⟩

/-- Each evaluation is governed by the gauge that it finds. -/
def GovernsAll [Scalar α] (source : Slot α V) : Gauge α → List (Evaluation α V M) → Prop
  | _, [] => True
  | g, e :: es => g.Governs source e ∧ GovernsAll source (g.after e) es

/-- The evaluations that take readings: what each reports, and the time since the last reading. -/
def steps [Scalar α] : Gauge α → List (Evaluation α V M) → List (α × α)
  | _, [] => []
  | g, e :: es =>
    match e.reading? with
    | some reading => (e.report, reading.time - g.last.time) :: (g.after e).steps es
    | none => (g.after e).steps es

variable {g : Gauge α} {xs ys : List (Evaluation α V M)}

theorem after_of_none {e : Evaluation α V M} (h : e.reading? = none) : g.after e = g := by
  rw [after, h]

theorem after_of_some {e : Evaluation α V M} {reading : Reading α}
    (h : e.reading? = some reading) : g.after e = ⟨reading, e.report⟩ := by
  rw [after, h]

theorem afterAll_cons (e : Evaluation α V M) :
    g.afterAll (e :: xs) = (g.after e).afterAll xs := rfl

theorem afterAll_append : g.afterAll (xs ++ ys) = (g.afterAll xs).afterAll ys := List.foldl_append

/-- A governed evaluation takes no reading, or one at another time than the last. -/
theorem Governs.reading [Scalar α] {source : Slot α V} {e : Evaluation α V M}
    (h : g.Governs source e) :
    e.reading? = none ∨ ∃ reading, e.reading? = some reading ∧
      ¬ (reading.time == g.last.time) = true ∧ e.report = g.last.rate reading := by
  rw [Governs] at h
  split at h
  · left
    rw [Evaluation.reading?, h.1]
  · rename_i hclock
    right
    obtain ⟨v, hcalls, hreport⟩ := h
    refine ⟨⟨e.clock.time, v⟩, ?_, hclock, hreport⟩
    rw [Evaluation.reading?, hcalls]

theorem governsAll_append [Scalar α] {source : Slot α V} :
    GovernsAll source g (xs ++ ys) ↔
      GovernsAll source g xs ∧ GovernsAll source (g.afterAll xs) ys := by
  induction xs generalizing g with
  | nil => exact iff_of_eq (true_and _).symm
  | cons x xs ih => exact (and_congr_right fun _ => ih).trans and_assoc.symm

end Gauge

/-- The rate is there, with this gauge. -/
def World.Gauged (w : World α V M) (a : AnimationId) (source : Slot α V) (g : Gauge α) : Prop :=
  (w.scene.animation a).strategy = .rate source g.last g.report

theorem World.Gauged.lt_size {w : World α V M} {a : AnimationId} {source : Slot α V} {g : Gauge α}
    (h : w.Gauged a source g) : a < w.scene.animations.size := by
  by_contra hge
  rw [Gauged, Scene.animation_of_size_le (Nat.not_lt.mp hge)] at h
  cases h

/-- A sample of the animation finishes. -/
def Event.samples (a : AnimationId) : Event α V → Bool
  | .sampleFinished b _ _ => b == a
  | _ => false

/-- How many samples of the animation have finished. -/
def World.timesSampled (w : World α V M) (a : AnimationId) : Nat :=
  w.journal.toList.countP (Event.samples a)

theorem World.timesSampled_note (w : World α V M) (a : AnimationId) (e : Event α V) :
    (w.note e).timesSampled a = w.timesSampled a + if e.samples a then 1 else 0 := by
  rw [timesSampled, note_journal, List.countP_append, List.countP_singleton]
  rfl

/-! ## What leaves a rate alone -/

/-- The animation has not been sampled in between. If it is a rate, its gauge is the same. -/
structure World.Spares (a : AnimationId) (w w' : World α V M) : Prop where
  times : w'.timesSampled a = w.timesSampled a
  gauged : ∀ source g, w.Gauged a source g → w'.Gauged a source g

namespace World.Spares

variable {a : AnimationId} {w w' : World α V M}

theorem of_eq (hjournal : w'.journal = w.journal)
    (h : (w'.scene.animation a).strategy = (w.scene.animation a).strategy) : w.Spares a w' :=
  ⟨by rw [timesSampled, hjournal]; rfl, fun _ _ hw => h.trans hw⟩

theorem trans {w'' : World α V M} (h : w.Spares a w') (h' : w'.Spares a w'') : w.Spares a w'' :=
  ⟨h'.times.trans h.times, fun source g hg => h'.gauged source g (h.gauged source g hg)⟩

theorem note {e : Event α V} (he : e.samples a = false) : w.Spares a (w.note e) := by
  refine ⟨?_, fun _ _ hw => hw⟩
  rw [timesSampled_note, he]
  rfl

theorem enter (l : LinkId) : w.Spares a (w.enter l) :=
  (note (e := .readBegan l) rfl).trans (.of_eq rfl rfl)

theorem leave (l : LinkId) (v : α) : w.Spares a (w.leave l v) := by
  have hlowered : w.Spares a (w.modifyLink l fun link => { link with busy := false }) :=
    .of_eq rfl rfl
  exact hlowered.trans (note (e := .readFinished l v) rfl)

/-- A call that samples an animation leaves it alone until the sample begins. -/
theorem of_samples {c : Call α V M} {through : Option LinkId} {clock : Clock α}
    (h : c.Samples w a through clock w') : w.Spares a w' := by
  cases h with
  | direct => exact .of_eq rfl rfl
  | evaluated => exact .of_eq rfl rfl
  | read => exact enter _

end World.Spares

/-- Whatever its calls do, the act itself leaves the rate alone. -/
def Act.Spares (a : AnimationId) : Act α V M β → World α V M → Prop
  | .done _, _ => True
  | .look next, w => (next w).Spares a w
  | .update f next, w => w.Spares a (f w) ∧ next.Spares a (f w)
  | .call _ next, _ => ∀ answer w', (next answer).Spares a w'

namespace Act.Spares

variable {a : AnimationId} {w : World α V M}

theorem bind {p : Act α V M β} {f : β → Act α V M γ} (hp : p.Spares a w)
    (hf : ∀ b w', (f b).Spares a w') : (p.bind f).Spares a w := by
  induction p generalizing w with
  | done b => exact hf b w
  | look next ih => exact ih w hp
  | update g next ih => exact ⟨hp.1, ih hp.2⟩
  | call c next ih => exact fun answer w' => ih answer (hp answer w')

theorem of_onlyCalls {p : Act α V M β} (hp : p.OnlyCalls) : p.Spares a w := by
  induction p generalizing w with
  | done b => trivial
  | look next => exact hp.elim
  | update f next => exact hp.elim
  | call c next ih => exact fun answer _ => ih answer (hp answer)

theorem look_iff {next : World α V M → Act α V M β} :
    (Act.look next).Spares a w ↔ (next w).Spares a w := Iff.rfl

theorem see (f : World α V M → β) : (Act.see f : Act α V M β).Spares a w := trivial

theorem note (e : Event α V) (he : e.samples a = false) :
    (Act.note e : Act α V M Unit).Spares a w := ⟨.note he, trivial⟩

theorem modifyLink (l : LinkId) (f : Link α → Link α) :
    (Act.modifyLink l f : Act α V M Unit).Spares a w := ⟨.of_eq rfl rfl, trivial⟩

/-- A change of another animation, or one in which strategies stay. -/
theorem modifyAnimation {b : AnimationId} {f : Animation α V → Animation α V}
    (h : b ≠ a ∨ ∀ anim, (f anim).strategy = anim.strategy) :
    (Act.modifyAnimation b f : Act α V M Unit).Spares a w := by
  refine ⟨.of_eq rfl ?_, trivial⟩
  rw [World.modifyAnimation_scene]
  rcases h with hne | hsame
  · rw [Scene.animation_modifyAnimation, if_neg fun h => hne h.1]
  · exact Scene.strategy_modifyAnimation hsame _ _ _

theorem extend (f : Scene α V → β × Scene α V) {ss : List (Strategy α V)}
    (h : w.scene.Grows ss (f w.scene).2) : (Act.extend f : Act α V M β).Spares a w := by
  refine ⟨⟨rfl, ?_⟩, trivial⟩
  intro source g hg
  exact (congrArg Animation.strategy (h.animation_of_lt hg.lt_size)).trans hg

theorem grow {f : Scene α V → β × Scene α V} {ss : List (Strategy α V)}
    (h : w.scene.Grows ss (f w.scene).2) : (Act.grow f : Act α V M β).Spares a w := by
  refine bind (p := Act.extend f) (extend f h) fun b w' => ?_
  exact ⟨.note rfl, trivial⟩

theorem notes (ns : List (Note α)) :
    (ns.forM fun n => (Act.note (.noted n) : Act α V M Unit)).Spares a w := by
  induction ns generalizing w with
  | nil => trivial
  | cons n rest ih => exact ⟨.note rfl, ih⟩

theorem install (draft : Draft α β) {add : β → Scene α V → AnimationId × Scene α V}
    (hadd : ∀ b sc, ∃ ss, Scene.Grows sc ss (add b sc).2) :
    (Evaluate.install draft add : Act α V M _).Spares a w := by
  refine (notes draft.notes).bind fun _ w' => ?_
  cases draft.outcome with
  | error e => trivial
  | ok b =>
      obtain ⟨ss, h⟩ := hadd b w'.scene
      exact (grow h).bind fun _ _ => trivial

/-! ### The rules -/

section Rules

variable [Scalar α] {host : Host α V M} {b : AnimationId} {clock : Clock α}

theorem strategy (hb : b ≠ a) (s : Strategy α V) :
    (Evaluate.strategy host b clock s).Spares a w := by
  cases s with
  | interpolate i =>
      refine (modifyAnimation (.inl hb)).bind fun _ _ => ?_
      refine (of_onlyCalls (onlyCalls_interpolation clock i)).bind fun _ _ => ?_
      exact (modifyAnimation (.inl hb)).bind fun _ _ => trivial
  | bezier points time extend =>
      exact (of_onlyCalls (onlyCalls_ratio clock time)).bind fun _ _ => trivial
  | wrap low high source => exact fun _ _ _ _ _ _ => trivial
  | rate source last current =>
      simp only [Evaluate.strategy]
      split
      · trivial
      · exact fun _ _ => (modifyAnimation (.inl hb)).bind fun _ _ => trivial
  | chain segments => exact of_onlyCalls (onlyCalls_chain clock segments)
  | custom s => trivial

theorem sample (hb : b ≠ a) (through : Option LinkId) :
    (Evaluate.sample host through b clock).Spares a w := by
  refine (note (.sampleBegan b through) rfl).bind fun _ w' => ?_
  refine (strategy hb _).bind fun s _ => ?_
  have hother : (Event.sampleFinished b through s : Event α V).samples a = false :=
    beq_false_of_ne hb
  exact (note _ hother).bind fun _ _ => trivial

theorem evaluateIn (hb : b ≠ a) (l : LinkId) :
    (Evaluate.evaluateIn host b l clock).Spares a w := by
  refine (sample hb _).bind fun s _ => ?_
  cases s with
  | value v => trivial
  | ended v =>
      refine (see _).bind fun anim _ => ?_
      cases anim.hook with
      | none => trivial
      | some hook =>
          exact (note (.hookRun hook l v) rfl).bind fun _ _ => of_onlyCalls (onlyCalls_perform _)

/-- A read through a link spares all animations but the one that it evaluates. -/
theorem readLink {l : LinkId} (h : (Call.read (.link l) clock).evaluates? a w = none) :
    (Evaluate.readLink host l clock).Spares a w := by
  simp only [Evaluate.readLink, bind_eq_bind, link?_bind, look_iff]
  cases hl : w.scene.links[l]? with
  | none => trivial
  | some here =>
      obtain ⟨target, busy, pin⟩ := here
      cases pin with
      | some v => trivial
      | none =>
          cases busy with
          | true =>
              refine (note (.cycleMet l) rfl).bind fun _ _ => ?_
              exact (modifyLink l _).bind fun _ _ => trivial
          | false =>
              have hb : target ≠ a := by
                rintro rfl
                simp [Call.evaluates?, hl] at h
              refine (note (.readBegan l) rfl).bind fun _ _ => ?_
              refine (modifyLink l _).bind fun _ _ => ?_
              refine (evaluateIn hb l).bind fun v _ => ?_
              refine (modifyLink l _).bind fun _ _ => ?_
              exact (note (.readFinished l v) rfl).bind fun _ _ => trivial

omit [Scalar α]

/-- A change that is made on a condition. -/
theorem guarded {c : Prop} [Decidable c] {p : Act α V M Unit} (h : p.Spares a w) :
    (if c then p else Act.done ()).Spares a w := by
  split
  · exact h
  · trivial

/-- A change in which strategies stay, and which is taken down. -/
theorem changed {f : Animation α V → Animation α V} {e : Event α V}
    (hf : ∀ anim, (f anim).strategy = anim.strategy) (he : e.samples a = false) :
    (do Act.modifyAnimation b f; Act.note e : Act α V M Unit).Spares a w :=
  (modifyAnimation (.inr hf)).bind fun _ _ => note e he

theorem hold : (Evaluate.hold b : Act α V M Unit).Spares a w := by
  refine (see _).bind fun anim _ => guarded ?_
  apply changed
  · intro anim
    rfl
  · rfl

theorem release : (Evaluate.release b : Act α V M Unit).Spares a w := by
  refine (see _).bind fun anim _ => guarded ?_
  apply changed
  · intro anim
    rfl
  · rfl

theorem setHook (hook : Option V.Hook) :
    (Evaluate.setHook b hook : Act α V M Unit).Spares a w := by
  refine (see _).bind fun size _ => guarded ?_
  apply changed
  · intro anim
    rfl
  · rfl

theorem setPin (l : LinkId) (pin : Option α) :
    (Evaluate.setPin l pin : Act α V M Unit).Spares a w := by
  refine (see _).bind fun found _ => guarded ?_
  exact (modifyLink l _).bind fun _ _ => note (.pinSet l pin) rfl

/-- A rate cannot be configured. -/
theorem reconfigure (change : Change α V) :
    (Evaluate.reconfigure b change : Act α V M Reconfigured).Spares a w := by
  simp only [Evaluate.reconfigure, bind_eq_bind, animation_bind, look_iff]
  cases hs : (w.scene.animation b).strategy with
  | interpolate i =>
      dsimp only
      split
      · trivial
      · refine ⟨⟨rfl, ?_⟩, .note rfl, trivial⟩
        intro source g hg
        have hne : b ≠ a := by
          rintro rfl
          rw [World.Gauged, hs] at hg
          cases hg
        rw [World.Gauged, World.modifyAnimation_scene, Scene.animation_modifyAnimation,
          if_neg fun h => hne h.1]
        exact hg
  | _ => trivial

end Rules

/-- The rule of a call leaves a rate alone, unless the call evaluates it. -/
theorem answer [Scalar α] {host : Host α V M} {c : Call α V M} (h : c.evaluates? a w = none) :
    (Evaluate.answer host c).Spares a w := by
  cases c with
  | read slot clock =>
      cases slot with
      | constant v => trivial
      | external source =>
          exact (note (.sourceRead source) rfl).bind fun _ _ => of_onlyCalls (onlyCalls_perform _)
      | link l => exact readLink h
  | sample b clock => exact sample (fun hb => by simp [Call.evaluates?, hb] at h) none
  | evaluateIn b l clock => exact evaluateIn (fun hb => by simp [Call.evaluates?, hb] at h) l
  | hold b => exact hold
  | release b => exact release
  | reconfigure b change => exact reconfigure change
  | setHook b hook => exact setHook hook
  | setPin l pin => exact setPin l pin
  | add s => exact grow (.addAnimation w.scene s)
  | addLink b => exact extend (fun sc => sc.addLink { target := b }) (.addLink w.scene rfl)
  | cloneSlot slot => exact extend (fun sc => sc.cloneSlot slot) (.cloneSlot w.scene slot)
  | build spec cfg clock current => exact install _ Scene.Grows.plan
  | buildChain spec cfg clock current => exact install _ Scene.Grows.chain
  | scene => trivial
  | «recall» => trivial
  | remember memory => exact ⟨.of_eq rfl rfl, trivial⟩

end Act.Spares

/-! ## Governed recordings -/

/-- If no evaluation of the rate meets another one on its way, each of them is governed by the gauge
that it finds, and the last gauge stays. Each sample of the rate belongs to an evaluation. -/
def Recorded.Governed [Scalar α] (a : AnimationId) (source : Slot α V) (w : World α V M)
    (r : Recorded α V M β) : Prop :=
  ∀ g, w.Gauged a source g → (∀ e ∈ r.evaluations, e.within = 0) →
    g.GovernsAll source r.evaluations ∧ r.world.Gauged a source (g.afterAll r.evaluations) ∧
      r.world.timesSampled a = w.timesSampled a + r.evaluations.length

section Recordings

variable [Scalar α] {host : Host α V M} {a : AnimationId} {source : Slot α V} {g : Gauge α}
  {w w₁ : World α V M} {c : Call α V M} {clock : Clock α} {through : Option LinkId}
  {tell : (c : Call α V M) → World α V M → Option (Recorded α V M c.Answer)}

theorem Recorded.Governed.andThen {r : Recorded α V M β} {s : Recorded α V M γ}
    (hr : r.Governed a source w) (hs : s.Governed a source r.world) :
    (r.andThen s).Governed a source w := by
  intro g hg hwithin
  obtain ⟨hfirst, hrest⟩ := List.forall_mem_append.mp hwithin
  obtain ⟨hgoverned, hg₁, htimes⟩ := hr g hg hfirst
  obtain ⟨hgoverned', hg₂, htimes'⟩ := hs _ hg₁ hrest
  simp only [Recorded.andThen, Gauge.afterAll_append, List.length_append]
  exact ⟨Gauge.governsAll_append.mpr ⟨hgoverned, hgoverned'⟩, hg₂, by omega⟩

/-- An act that leaves the rate alone is governed as its calls are. -/
theorem Act.Spares.governed (htell : ∀ c w r, tell c w = some r → r.Governed a source w)
    {p : Act α V M β} (hp : p.Spares a w) {r : Recorded α V M β} (hr : p.record tell w = some r) :
    r.Governed a source w := by
  induction p generalizing w r with
  | done b =>
      obtain rfl := Option.some.inj hr
      exact fun g hg _ => ⟨trivial, hg, rfl⟩
  | look next ih => exact ih w hp hr
  | update f next ih =>
      have hnext := ih hp.2 hr
      intro g hg hwithin
      rw [← hp.1.times]
      exact hnext g (hp.1.gauged source g hg) hwithin
  | call c next ih =>
      obtain ⟨s, hs, hrest⟩ := Option.bind_eq_some_iff.mp hr
      obtain ⟨t, ht, rfl⟩ := Option.map_eq_some_iff.mp hrest
      have hcall : (s.answering c).Governed a source w := htell c w s hs
      exact hcall.andThen (ih s.result (hp s.result s.world) ht)

/-- A rate is never over. Its sample is governed if the rate is not evaluated on the way. -/
theorem governs_sample (htell : ∀ c w r, tell c w = some r → r.Governed a source w)
    (hg : w.Gauged a source g) {r : Recorded α V M (Sample α)}
    (hr : (sample host through a clock).record tell w = some r) :
    ∃ v, r.result = .value v ∧ (r.evaluations = [] → g.Governs source ⟨clock, r.calls, 0, v⟩ ∧
      r.world.Gauged a source (g.after ⟨clock, r.calls, 0, v⟩) ∧
      r.world.timesSampled a = w.timesSampled a + 1) := by
  have hs : (w.scene.animation a).strategy = .rate source g.last g.report := hg
  simp only [sample, bind_eq_bind, note_bind, animation_bind, record, World.note_scene, hs,
    strategy] at hr
  by_cases hclock : (clock.time == g.last.time) = true
  · simp only [hclock, if_true] at hr
    obtain rfl := Option.some.inj hr
    refine ⟨g.report, rfl, fun _ => ⟨(if_pos hclock).mpr ⟨rfl, rfl⟩, hg, ?_⟩⟩
    rw [World.timesSampled_note, World.timesSampled_note]
    simp [Event.samples]
  · simp only [hclock, Bool.false_eq_true, if_false] at hr
    obtain ⟨s, hs₁, hrest⟩ := Option.bind_eq_some_iff.mp hr
    obtain ⟨t, ht, rfl⟩ := Option.map_eq_some_iff.mp hrest
    obtain rfl := Option.some.inj ht
    refine ⟨_, rfl, fun alone => ?_⟩
    -- The rate has stayed as it was while the source was read.
    have hnone : s.evaluations = [] := (List.append_eq_nil_iff.mp alone).1
    have hbegan : (w.note (.sampleBegan a through)).Gauged a source g := hg
    obtain ⟨-, hread, htimes⟩ := htell _ _ _ hs₁ g hbegan (by simp [hnone])
    rw [hnone] at hread htimes
    refine ⟨?_, ?_, ?_⟩
    · rw [Gauge.Governs, if_neg hclock]
      exact ⟨s.result, rfl, rfl⟩
    · simp only [World.Gauged, Recorded.andThen, World.note_scene, World.modifyAnimation_scene,
        Scene.animation_modifyAnimation, hread.lt_size, and_self, if_true]
      rfl
    · have hstill : s.world.timesSampled a = w.timesSampled a := by
        rw [htimes, World.timesSampled_note]
        rfl
      have hfinished (x : Sample α) : (Event.sampleFinished a through x : Event α V).samples a :=
        beq_self_eq_true a
      simp only [Recorded.andThen]
      rw [World.timesSampled_note, if_pos (hfinished _), ← hstill]
      rfl

/-- A call that samples a rate is recorded as the sample is. -/
theorem record_samples (h : c.Samples w a through clock w₁)
    {r : Recorded α V M c.Answer} (hr : (answer host c).record tell w = some r) :
    ∃ s, (sample host through a clock).record tell w₁ = some s ∧
      ∀ v, s.result = .value v → c.reported? r.result = some v ∧ r.calls = s.calls ∧
        r.evaluations = s.evaluations ∧ s.world.Spares a r.world := by
  -- An evaluation that is not over has nothing to do behind its sample.
  have hevaluate {w : World α V M} {l : LinkId} {r : Recorded α V M α}
      (hr : (evaluateIn host a l clock).record tell w = some r) :
      ∃ s, (sample host (some l) a clock).record tell w = some s ∧
        ∀ v, s.result = .value v → r = { s with result := v } := by
    rw [evaluateIn, bind_eq_bind, record_bind] at hr
    obtain ⟨s, hs, hrest⟩ := Option.bind_eq_some_iff.mp hr
    refine ⟨s, hs, ?_⟩
    intro v hv
    rw [hv] at hrest
    obtain ⟨t, ht, rfl⟩ := Option.map_eq_some_iff.mp hrest
    obtain rfl := Option.some.inj ht
    simp [Recorded.andThen]
  cases h with
  | direct =>
      refine ⟨r, hr, ?_⟩
      intro v hv
      refine ⟨?_, rfl, rfl, .of_eq rfl rfl⟩
      rw [Call.reported?, hv]
      rfl
  | evaluated =>
      obtain ⟨s, hs, hrest⟩ := hevaluate hr
      refine ⟨s, hs, ?_⟩
      intro v hv
      obtain rfl := hrest v hv
      exact ⟨rfl, rfl, rfl, .of_eq rfl rfl⟩
  | @read _ l here _ found unpinned idle =>
      change (readLink host l clock).record tell w = some r at hr
      simp only [readLink, bind_eq_bind, link?_bind, record, found, unpinned, idle,
        Bool.false_eq_true, if_false, note_bind, modifyLink_bind, record_bind] at hr
      obtain ⟨t, ht, hrest⟩ := Option.bind_eq_some_iff.mp hr
      obtain ⟨s, hs, heq⟩ := hevaluate ht
      refine ⟨s, hs, ?_⟩
      intro v hv
      obtain rfl := heq v hv
      obtain ⟨u, hu, rfl⟩ := Option.map_eq_some_iff.mp hrest
      obtain rfl := Option.some.inj hu
      exact ⟨rfl, List.append_nil _, List.append_nil _, .leave l v⟩

omit [Scalar α] in
/-- A call that evaluates an animation reports a number. -/
theorem exists_reported {clock : Clock α} (h : c.evaluates? a w = some clock)
    (x : c.Answer) : ∃ v, c.reported? x = some v := by
  obtain ⟨through, w₁, h⟩ := Call.evaluates?_eq_some.mp h
  cases h with
  | direct => exact ⟨_, rfl⟩
  | evaluated => exact ⟨_, rfl⟩
  | read => exact ⟨_, rfl⟩

/-- The answer to every call is governed. The induction is on the depth, since the source is read
one level further in. -/
theorem governed_tell (host : Host α V M) (a : AnimationId) (source : Slot α V) (depth : Nat)
    (c : Call α V M) (w : World α V M) (r : Recorded α V M c.Answer)
    (hr : host.tell a depth c w = some r) : r.Governed a source w := by
  induction depth generalizing c w r with
  | zero => cases hr
  | succ depth ih =>
      obtain ⟨s, hs, rfl⟩ := Option.map_eq_some_iff.mp hr
      cases hclock : c.evaluates? a w with
      | none =>
          have hspared := (Act.Spares.answer hclock).governed ih hs
          have hsame : s.finishing a w c = s := by
            simp [Recorded.finishing, Call.evaluation?, hclock]
          rwa [hsame]
      | some clock =>
          obtain ⟨through, w₁, hsamples⟩ := Call.evaluates?_eq_some.mp hclock
          obtain ⟨v, hv⟩ := exists_reported hclock s.result
          have hevaluations : (s.finishing a w c).evaluations =
              s.evaluations ++ [⟨clock, s.calls, s.evaluations.length, v⟩] := by
            simp [Recorded.finishing, Call.evaluation?, hclock, hv]
          intro g hg hwithin
          rw [hevaluations] at hwithin ⊢
          have hnone : s.evaluations = [] :=
            List.length_eq_zero_iff.mp (hwithin _ (List.mem_append_right _ List.mem_cons_self))
          obtain ⟨t, ht, hrest⟩ := record_samples hsamples hs
          have hbegun := World.Spares.of_samples hsamples
          obtain ⟨u, hu, hgoverned⟩ := governs_sample ih (hbegun.gauged source g hg) ht
          obtain ⟨hreported, hcalls, hsame, hleft⟩ := hrest u hu
          obtain rfl : v = u := Option.some.inj (hv.symm.trans hreported)
          obtain ⟨hgoverns, hlast, htimes⟩ := hgoverned (hsame.symm.trans hnone)
          rw [hnone, hcalls]
          refine ⟨⟨hgoverns, trivial⟩, hleft.gauged source _ hlast, ?_⟩
          exact hleft.times.trans (htimes.trans (congrArg (· + 1) hbegun.times))

end Recordings

/-! ## Making a rate -/

/-- Host code adds a rate and goes on. The two parts of its run are recorded, and the rate has been
made from the first reading of its source. -/
structure Host.RunsRate [Scalar α] (host : Host α V M) (depth : Nat) (source : Slot α V)
    (clock : Clock α) (next : AnimationId → Routine α V M β) (w : World α V M) (first : Reading α)
    (made : Recorded α V M AnimationId) (course : Recorded α V M β) : Prop where
  makes : (Routine.addRate source clock).perform.record (host.tell made.result depth) w = some made
  calls : made.calls =
    [⟨.read source clock, first.value⟩, ⟨.add (.rate source first 0.0), made.result⟩]
  time : first.time = clock.time
  goes : (next made.result).perform.record (host.tell made.result depth) made.world = some course

section Making

variable [Scalar α] {host : Host α V M} {depth : Nat} {source : Slot α V} {clock : Clock α}
  {next : AnimationId → Routine α V M β} {w w' : World α V M} {first : Reading α}
  {made : Recorded α V M AnimationId} {course : Recorded α V M β}

/-- To make a rate, the source is read once and the rate is added. -/
theorem record_addRate
    {tell : (c : Call α V M) → World α V M → Option (Recorded α V M c.Answer)}
    (h : (Routine.addRate source clock).perform.record tell w = some made) :
    ∃ v w₁ s, tell (.add (.rate source ⟨clock.time, v⟩ 0.0)) w₁ = some s ∧
      made.result = s.result ∧ made.world = s.world ∧
      made.calls =
        [⟨.read source clock, v⟩, ⟨.add (.rate source ⟨clock.time, v⟩ 0.0), s.result⟩] := by
  obtain ⟨r, hr, hrest⟩ := Option.bind_eq_some_iff.mp h
  obtain ⟨t, ht, rfl⟩ := Option.map_eq_some_iff.mp hrest
  obtain ⟨s, hs, hdone⟩ := Option.bind_eq_some_iff.mp ht
  obtain ⟨u, hu, rfl⟩ := Option.map_eq_some_iff.mp hdone
  obtain rfl := Option.some.inj hu
  exact ⟨r.result, r.world, s, hs, rfl, rfl, rfl⟩

theorem exists_record {p : Act α V M β} {b : β} (a : AnimationId)
    (h : p.run (respond host depth) w = some (b, w')) :
    ∃ r, p.record (host.tell a depth) w = some r ∧ r.erase = (b, w') := by
  rw [← Act.erase_record (host.erase_tell a depth)] at h
  exact Option.map_eq_some_iff.mp h

theorem exists_runsRate {b : β}
    (h : host.run depth (Routine.addRate source clock >>= next) w = some (b, w')) :
    ∃ first made course, host.RunsRate depth source clock next w first made course ∧
      course.erase = (b, w') := by
  change ((Routine.addRate source clock).bind next).perform.run _ w = _ at h
  rw [Routine.perform_bind, run_bind] at h
  obtain ⟨⟨a, w₀⟩, hmade, hcourse⟩ := Option.bind_eq_some_iff.mp h
  obtain ⟨made, hrecord, heq⟩ := exists_record a hmade
  obtain ⟨rfl, rfl⟩ := Prod.mk.inj heq
  obtain ⟨course, hrest, herase⟩ := exists_record made.result hcourse
  obtain ⟨v, w₁, s, -, hresult, -, hcalls⟩ := record_addRate hrecord
  exact ⟨⟨clock.time, v⟩, made, course, ⟨hrecord, hresult ▸ hcalls, rfl, hrest⟩, herase⟩

namespace Host.RunsRate

theorem gauged (h : host.RunsRate depth source clock next w first made course) :
    made.world.Gauged made.result source ⟨first, 0.0⟩ := by
  obtain ⟨v, w₁, s, hs, hresult, hworld, hcalls⟩ := record_addRate h.makes
  obtain ⟨-, rfl, -⟩ : first.value = v ∧ first = ⟨clock.time, v⟩ ∧ made.result = s.result := by
    simpa using h.calls.symm.trans hcalls
  have hanswer : host.Answers (.add (.rate source ⟨clock.time, v⟩ 0.0)) w₁ s.result s.world := by
    refine ⟨depth, ?_⟩
    rw [← host.erase_tell made.result, hs]
    rfl
  obtain ⟨hname, hscene⟩ := answers_add.mp hanswer
  have hgrows := Scene.Grows.addAnimation w₁.scene (.rate source ⟨clock.time, v⟩ 0.0)
  rw [World.Gauged, hresult, hworld, hname, hscene]
  exact (congrArg Animation.strategy (hgrows.animation_of_le le_rfl)).trans (by simp)

/-- The rate goes by its gauge from the first reading on. -/
theorem governed (h : host.RunsRate depth source clock next w first made course)
    (apart : ∀ e ∈ course.evaluations, e.within = 0) :
    Gauge.GovernsAll source ⟨first, 0.0⟩ course.evaluations ∧
      course.world.timesSampled made.result =
        made.world.timesSampled made.result + course.evaluations.length := by
  have hcourse : course.Governed made.result source made.world :=
    (Act.Spares.of_onlyCalls (onlyCalls_perform _)).governed (governed_tell host _ source depth)
      h.goes
  obtain ⟨hgoverned, -, htimes⟩ := hcourse _ h.gauged apart
  exact ⟨hgoverned, htimes⟩

end Host.RunsRate

end Making

/-! ## Sums of steps -/

section Exact

variable {K : Type} [Field K] [LinearOrder K] [FloorRing K] [Elementary K]

/-- A step takes time, and over it the rate makes up for the change since the last reading. -/
theorem Reading.rate_mul {last next : Reading K} (h : ¬ (next.time == last.time) = true) :
    next.time - last.time ≠ 0 ∧
      last.rate next * (next.time - last.time) = next.value - last.value := by
  have hne : next.time ≠ last.time := fun heq => h (decide_eq_true heq)
  exact ⟨sub_ne_zero.mpr hne, div_mul_cancel₀ _ (sub_ne_zero.mpr hne)⟩

theorem Gauge.sum_steps {source : Slot K V} {g : Gauge K} {es : List (Evaluation K V M)}
    (h : g.GovernsAll source es) :
    ((g.steps es).map fun s => s.1 * s.2).sum = (g.afterAll es).last.value - g.last.value ∧
      ∀ s ∈ g.steps es, s.2 ≠ 0 := by
  induction es generalizing g with
  | nil => exact ⟨(sub_self _).symm, nofun⟩
  | cons e es ih =>
      obtain ⟨hfirst, hrest⟩ := h
      obtain ⟨hsum, hsteps⟩ := ih hrest
      rw [afterAll_cons]
      rcases hfirst.reading with hnone | ⟨reading, hsome, hlater, hreport⟩
      · rw [after_of_none hnone] at hsum hsteps ⊢
        rw [steps, hnone, after_of_none hnone]
        exact ⟨hsum, hsteps⟩
      · obtain ⟨htime, hchange⟩ := Reading.rate_mul hlater
        rw [after_of_some hsome] at hsum hsteps ⊢
        rw [steps, hsome, after_of_some hsome]
        refine ⟨?_, List.forall_mem_cons.mpr ⟨htime, hsteps⟩⟩
        rw [List.map_cons, List.sum_cons, hsum, hreport]
        calc g.last.rate reading * (reading.time - g.last.time) +
              ((afterAll ⟨reading, g.last.rate reading⟩ es).last.value - reading.value)
            = (reading.value - g.last.value) +
              ((afterAll ⟨reading, g.last.rate reading⟩ es).last.value - reading.value) := by
              rw [hchange]
          _ = (afterAll ⟨reading, g.last.rate reading⟩ es).last.value - g.last.value := by
              rw [add_comm, sub_add_sub_cancel]

end Exact

/-! ## Rates -/

/-- An evaluation comes to an end if the rate has been read at this time, or else if its source can
be read. -/
theorem exists_yields_sample_rate [Scalar α] {host : Host α V M} {w : World α V M}
    {a : AnimationId} {source : Slot α V} {g : Gauge α} (hg : w.Gauged a source g)
    {through : Option LinkId} {clock : Clock α} :
    (∃ s w', (sample host through a clock).Yields host w s w') ↔
      (clock.time == g.last.time) = true ∨
        ∃ v w', host.Answers (.read source clock) (w.note (.sampleBegan a through)) v w' := by
  have hs : (w.scene.animation a).strategy = .rate source g.last g.report := hg
  simp only [yields_sample_iff, hs, strategy]
  by_cases hclock : (clock.time == g.last.time) = true
  · simp [hclock]
  · simp only [hclock, Bool.false_eq_true, if_false, false_or, bind_eq_bind, yields_bind,
      modifyAnimation_bind, yields_update, pure_eq_done, yields_done]
    constructor
    · rintro ⟨s, w', w₁, ⟨v, w₂, hv, -⟩, -⟩
      exact ⟨v, w₂, yields_ask.mp hv⟩
    · rintro ⟨v, w₂, hv⟩
      exact ⟨_, _, _, ⟨v, w₂, yields_ask.mpr hv, rfl, rfl⟩, rfl⟩

/-- **Rates add up.** Host code adds a rate and goes on as it likes, and so do its sources. Making
the rate reads its source once. Each sample of the rate from then on, wherever in the run, belongs
to an evaluation. An evaluation reads the source once if its clock shows another time than the last
reading, and reports the rate since then. If not, it calls nothing, and what was last reported is
reported again, which is zero at first. Without rounding, the reported rates over their time steps
add up to the last reading minus the first, and no step is empty. The rate must not be evaluated
while it is reading its source. -/
theorem rates_add_up :
    (∀ {α : Type} [Scalar α] {V : Vocabulary} {M β : Type} (host : Host α V M) (depth : Nat)
      (source : Slot α V) (clock : Clock α) (next : AnimationId → Routine α V M β)
      (w w' : World α V M) (b : β),
      host.run depth (Routine.addRate source clock >>= next) w = some (b, w') →
      ∃ first made course, host.RunsRate depth source clock next w first made course ∧
        course.erase = (b, w')) ∧
    (∀ {α : Type} [Scalar α] {V : Vocabulary} {M β : Type} (host : Host α V M) (depth : Nat)
      (source : Slot α V) (clock : Clock α) (next : AnimationId → Routine α V M β)
      (w : World α V M) (first : Reading α) (made : Recorded α V M AnimationId)
      (course : Recorded α V M β),
      host.RunsRate depth source clock next w first made course →
      (∀ e ∈ course.evaluations, e.within = 0) →
      course.world.timesSampled made.result =
          made.world.timesSampled made.result + course.evaluations.length ∧
        ∀ before e after, course.evaluations = before ++ e :: after →
          (Gauge.afterAll ⟨first, 0.0⟩ before).Governs source e) ∧
    (∀ {α : Type} [Scalar α] {V : Vocabulary} {M : Type} (host : Host α V M) (source : Slot α V)
      (g : Gauge α) (w : World α V M) (a : AnimationId), w.Gauged a source g →
      ∀ through clock, (∃ s w', (sample host through a clock).Yields host w s w') ↔
        (clock.time == g.last.time) = true ∨
          ∃ v w', host.Answers (.read source clock) (w.note (.sampleBegan a through)) v w') ∧
    ∀ {K : Type} [Field K] [LinearOrder K] [FloorRing K] [Elementary K] {V : Vocabulary}
      {M β : Type} (host : Host K V M) (depth : Nat) (source : Slot K V) (clock : Clock K)
      (next : AnimationId → Routine K V M β) (w : World K V M) (first : Reading K)
      (made : Recorded K V M AnimationId) (course : Recorded K V M β),
      host.RunsRate depth source clock next w first made course →
      (∀ e ∈ course.evaluations, e.within = 0) →
      ((Gauge.steps ⟨first, 0.0⟩ course.evaluations).map fun s => s.1 * s.2).sum =
          (Gauge.afterAll ⟨first, 0.0⟩ course.evaluations).last.value - first.value ∧
        ∀ s ∈ Gauge.steps ⟨first, 0.0⟩ course.evaluations, s.2 ≠ 0 := by
  refine ⟨?_, ?_, ?_, ?_⟩
  · intro α _ V M β host depth source clock next w w' b h
    exact exists_runsRate h
  · intro α _ V M β host depth source clock next w first made course h apart
    obtain ⟨hall, htimes⟩ := h.governed apart
    refine ⟨htimes, ?_⟩
    intro before e after heq
    rw [heq, Gauge.governsAll_append] at hall
    exact hall.2.1
  · intro α _ V M host source g w a hg through clock
    exact exists_yields_sample_rate hg
  · intro K _ _ _ _ V M β host depth source clock next w first made course h apart
    exact Gauge.sum_steps (h.governed apart).1

namespace Odometer

/-! A source that reports what the host remembers. It moves while the clock stands still, and the
clock is set back once. -/

def vocabulary : Vocabulary := ⟨Unit, Empty, Empty⟩

def host : Host ℚ vocabulary ℚ where
  source _ := Routine.ask .recall
  hook := Empty.elim
  strategy := Empty.elim

def source : Slot ℚ vocabulary := .external ()

def drive (a : AnimationId) : Routine ℚ vocabulary ℚ (List ℚ) := do
  Routine.ask (.remember 8)
  let forward ← Routine.evaluate a (Clock.new.setTime 3)
  Routine.ask (.remember 5)
  let still ← Routine.evaluate a (Clock.new.setTime 3)
  let back ← Routine.evaluate a (Clock.new.setTime 1)
  return [forward, still, back]

def world : World ℚ vocabulary ℚ := { memory := 2 }

def made : Recorded ℚ vocabulary ℚ AnimationId :=
  ((Routine.addRate source .new).perform.record (host.tell 0 3) world).get (by decide +kernel)

def course : Recorded ℚ vocabulary ℚ (List ℚ) :=
  ((drive 0).perform.record (host.tell 0 3) made.world).get (by decide +kernel)

def first : Reading ℚ := ⟨Clock.new.time, 2⟩

/-- The rates 2 and 3/2 over the steps 3 and -2 make 3, which is the way from 2 to 5. -/
theorem measures_way :
    (∃ first made course w', host.RunsRate 3 source .new drive world first made course ∧
      course.erase = ([2, 2, 3 / 2], w')) ∧
    (∃ e rest, course.evaluations = e :: rest ∧ Gauge.Governs ⟨first, 0.0⟩ source e ∧
      e.report = 2) ∧
    (∃ s w', (sample host none 0 .new).Yields host made.world s w') ∧
    Gauge.steps ⟨first, 0.0⟩ course.evaluations = [(2, 3), (3 / 2, -2)] ∧
    ((Gauge.steps ⟨first, 0.0⟩ course.evaluations).map fun s => s.1 * s.2).sum = 5 - 2 := by
  obtain ⟨hruns, hgoverns, hends, hsum⟩ := rates_add_up
  have hname : made.result = 0 := by decide +kernel
  have hrun : host.RunsRate 3 source .new drive world first made course := by
    refine ⟨?_, rfl, rfl, ?_⟩
    · rw [hname]
      exact (Option.some_get _).symm
    · rw [hname]
      exact (Option.some_get _).symm
  have apart : ∀ e ∈ course.evaluations, e.within = 0 := by decide +kernel
  refine ⟨?_, ?_, ?_, by decide +kernel, ?_⟩
  · have hresult : (host.run 3 (Routine.addRate source .new >>= drive) world).map (·.1) =
        some [2, 2, 3 / 2] := by decide +kernel
    obtain ⟨⟨b, w'⟩, hrun, rfl⟩ := Option.map_eq_some_iff.mp hresult
    obtain ⟨first, made, course, h⟩ := hruns host 3 source .new drive world w' _ hrun
    exact ⟨first, made, course, w', h⟩
  · have hreports : course.evaluations.map (·.report) = [2, 2, 3 / 2] := by decide +kernel
    obtain ⟨e, rest, heq⟩ := List.exists_cons_of_length_pos (l := course.evaluations)
      (by decide +kernel)
    refine ⟨e, rest, heq, ?_, ?_⟩
    · exact (hgoverns host 3 source .new drive world first made course hrun apart).2 [] e rest heq
    · rw [heq] at hreports
      exact (List.cons.inj hreports).1
  · have hgauged : made.world.Gauged 0 source ⟨first, 0.0⟩ := hname ▸ hrun.gauged
    exact (hends host source _ made.world 0 hgauged none .new).mpr (.inl (by decide +kernel))
  · exact (hsum host 3 source .new drive world first made course hrun apart).1.trans
      (by decide +kernel)

end Odometer

end Inbetween
