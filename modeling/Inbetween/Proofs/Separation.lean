import Inbetween.Proofs.Terms

/-!
# What evaluations depend on

With pure host code, an evaluation follows the references of the scene and nothing else. It leaves
everything as it was but the memories of rates and, where cycles are met, guards. It warns about a
link only if it comes to the link while the link is being read. And it does not notice the pin of a
link to which no reference leads.
-/

namespace Inbetween

open Act

variable {α : Type} {V : Vocabulary} {M : Type} {β γ : Type}

/-! ## Scenes that refer to the same things -/

/-- The strategies are the same but for what a rate remembers. -/
inductive Strategy.Renews : Strategy α V → Strategy α V → Prop
  | same (s : Strategy α V) : Renews s s
  | rate {source : Slot α V} {last last' : Reading α} {current current' : α} :
      Renews (.rate source last current) (.rate source last' current')

theorem Strategy.Renews.trans {s s' s'' : Strategy α V} (h : s.Renews s') (h' : s'.Renews s'') :
    s.Renews s'' := by
  cases h with
  | same => exact h'
  | rate =>
      cases h' with
      | same => exact .rate
      | rate => exact .rate

theorem Strategy.Renews.of_rate {source : Slot α V} {last : Reading α} {current : α}
    {s : Strategy α V} (h : (Strategy.rate source last current).Renews s) (last' : Reading α)
    (current' : α) : s.Renews (.rate source last' current') := by
  cases h with
  | same => exact .rate
  | rate => exact .rate

/-- The world refers to the same things as the scene. -/
structure World.Resembles (sc : Scene α V) (memory : M) (w : World α V M) : Prop where
  memory : w.memory = memory
  strategy : ∀ a, (sc.animation a).strategy.Renews (w.scene.animation a).strategy
  hook : ∀ a, (w.scene.animation a).hook = (sc.animation a).hook
  link : ∀ l : LinkId, w.scene.links[l]?.map (fun k => (k.target, k.pin)) =
    sc.links[l]?.map fun k => (k.target, k.pin)

/-- An evaluation that comes to the given links leads from one world to the other. -/
structure World.Passes (sc : Scene α V) (reach : LinkId → Prop) (w : World α V M)
    (es : List (Event α V)) (w' : World α V M) : Prop where
  journal : w'.journal.toList = w.journal.toList ++ es
  memory : w'.memory = w.memory
  strategy : ∀ a, (w.scene.animation a).strategy.Renews (w'.scene.animation a).strategy
  hook : ∀ a, (w'.scene.animation a).hook = (w.scene.animation a).hook
  link : ∀ l : LinkId, w'.scene.links[l]?.map (fun k => (k.target, k.pin)) =
    w.scene.links[l]?.map fun k => (k.target, k.pin)
  /-- Guards may have been lowered. -/
  busy : ∀ l, (w'.scene.link l).busy = true → (w.scene.link l).busy = true
  /-- A warning is about a link that was being read, or is being read where it is met. -/
  warned : ∀ m, .cycleMet m ∈ es →
    (reach m ∧ (w.scene.link m).busy = true) ∨ ∃ path, sc.Returns m path
  began : ∀ m, .readBegan m ∈ es → ∃ here, sc.Unsettled m here
  /-- Nothing but rates changes the animations. -/
  still : (∀ a source last current, (sc.animation a).strategy ≠ .rate source last current) →
    w'.scene.animations = w.scene.animations

/-- The event is neither the begin of a read nor a warning. -/
def Event.isAside : Event α V → Bool
  | .readBegan _ | .cycleMet _ => false
  | _ => true

namespace World.Passes

variable {sc : Scene α V} {memory : M} {reach reach' : LinkId → Prop} {w w' w'' : World α V M}
  {es es' : List (Event α V)}

theorem refl (w : World α V M) : w.Passes sc reach [] w where
  journal := (List.append_nil _).symm
  memory := rfl
  strategy _ := .same _
  hook _ := rfl
  link _ := rfl
  busy _ h := h
  warned _ h := by simp at h
  began _ h := by simp at h
  still _ := rfl

theorem trans (h : w.Passes sc reach es w') (h' : w'.Passes sc reach es' w'') :
    w.Passes sc reach (es ++ es') w'' where
  journal := by rw [h'.journal, h.journal, List.append_assoc]
  memory := h'.memory.trans h.memory
  strategy a := (h.strategy a).trans (h'.strategy a)
  hook a := (h'.hook a).trans (h.hook a)
  link l := (h'.link l).trans (h.link l)
  busy l hl := h.busy l (h'.busy l hl)
  warned m hm := by
    rcases List.mem_append.mp hm with hm | hm
    · exact h.warned m hm
    · exact (h'.warned m hm).imp_left fun ⟨hreach, hbusy⟩ => ⟨hreach, h.busy m hbusy⟩
  began m hm := (List.mem_append.mp hm).elim (h.began m) (h'.began m)
  still hrate := (h'.still hrate).trans (h.still hrate)

theorem mono (h : w.Passes sc reach es w') (hsub : ∀ m, reach m → reach' m) :
    w.Passes sc reach' es w' :=
  { h with warned := fun m hm => (h.warned m hm).imp_left fun ⟨hm, hbusy⟩ => ⟨hsub m hm, hbusy⟩ }

theorem resembles (h : w.Passes sc reach es w') (hw : w.Resembles sc memory) :
    w'.Resembles sc memory where
  memory := h.memory.trans hw.memory
  strategy a := (hw.strategy a).trans (h.strategy a)
  hook a := (h.hook a).trans (hw.hook a)
  link l := (h.link l).trans (hw.link l)

/-- Nothing is met and nothing is changed. -/
theorem note (w : World α V M) {e : Event α V} (aside : e.isAside = true) :
    w.Passes sc reach [e] (w.note e) where
  journal := World.note_journal w e
  memory := rfl
  strategy _ := .same _
  hook _ := rfl
  link _ := rfl
  busy _ h := h
  warned m h := by
    obtain rfl := List.mem_singleton.mp h
    exact absurd aside Bool.false_ne_true
  began m h := by
    obtain rfl := List.mem_singleton.mp h
    exact absurd aside Bool.false_ne_true
  still _ := rfl

/-- A rate renews what it remembers. -/
theorem renew (hw : w.Resembles sc memory) {a : AnimationId} {source : Slot α V} {last : Reading α}
    {current : α} (own : (sc.animation a).strategy = .rate source last current)
    (last' : Reading α) (current' : α) :
    w.Passes sc reach [] (w.modifyAnimation a fun anim =>
      { anim with strategy := .rate source last' current' }) where
  journal := (List.append_nil _).symm
  memory := rfl
  strategy b := by
    rw [World.modifyAnimation_scene, Scene.animation_modifyAnimation]
    split
    · rename_i hb
      have hrenews := hw.strategy b
      rw [← hb.1, own] at hrenews
      rw [← hb.1]
      exact hrenews.of_rate last' current'
    · exact .same _
  hook b := by
    rw [World.modifyAnimation_scene, Scene.animation_modifyAnimation]
    split <;> rfl
  link _ := rfl
  busy _ h := h
  warned _ h := by simp at h
  began _ h := by simp at h
  still hrate := absurd own (hrate a source last current)

/-- What was lent out is given back. -/
theorem lent {a : AnimationId} (h : (w.modifyAnimation a fun anim =>
    { anim with sampling := anim.sampling + 1 }).Passes sc reach es w') :
    w.Passes sc reach es (w'.modifyAnimation a fun anim =>
      { anim with sampling := anim.sampling - 1 }) where
  journal := h.journal
  memory := h.memory
  strategy b := by
    have hb := h.strategy b
    rwa [World.modifyAnimation_scene, Scene.strategy_modifyAnimation (by exact fun _ => rfl)] at hb ⊢
  hook b := by
    have hb := h.hook b
    rwa [World.modifyAnimation_scene, Scene.hook_modifyAnimation (by exact fun _ => rfl)] at hb ⊢
  link := h.link
  busy := h.busy
  warned := h.warned
  began := h.began
  still hrate := by
    have hlent : w'.scene.animations =
        w.scene.animations.modify a fun anim => { anim with sampling := anim.sampling + 1 } :=
      h.still hrate
    simp only [World.modifyAnimation_scene, Scene.modifyAnimation, hlent]
    exact Scene.giveBack_lend _ a

theorem cut (w : World α V M) {l : LinkId} (reached : reach l)
    (busy : (w.scene.link l).busy = true) :
    w.Passes sc reach [.cycleMet l]
      ((w.note (.cycleMet l)).modifyLink l fun link => { link with busy := false }) where
  journal := World.note_journal w _
  memory := rfl
  strategy _ := .same _
  hook _ := rfl
  link m := by
    rw [World.modifyLink_scene, Scene.map_setBusy]
    rfl
  busy m h := ((Scene.busy_lowered _ _ _).mp h).2
  warned m h := by
    obtain rfl : m = l := by simpa using h
    exact .inl ⟨reached, busy⟩
  began m h := by simp at h
  still _ := rfl

/-- The read of a link. Inside, the link itself is being read, too. -/
theorem read {l : LinkId} {here : Link α} (unsettled : sc.Unsettled l here)
    (hl : l < w.scene.links.size)
    (h : (w.enter l).Passes sc (fun m => ∃ path, sc.AnimationLeads m here.target path) es w')
    (v : α) :
    w.Passes sc (fun m => ∃ path, sc.SlotLeads m (.link l) path)
      (.readBegan l :: (es ++ [.readFinished l v])) (w'.leave l v) where
  journal := by
    simp [World.leave, h.journal, World.enter]
  memory := h.memory
  strategy := h.strategy
  hook := h.hook
  link m := by
    rw [World.leave, World.note_scene, World.modifyLink_scene, Scene.map_setBusy, h.link,
      World.enter, World.modifyLink_scene, Scene.map_setBusy]
    rfl
  busy m hm := by
    obtain ⟨hne, hm⟩ := (Scene.busy_lowered _ _ _).mp hm
    exact ((Scene.busy_raised w.scene hl m).mp (h.busy m hm)).resolve_left hne
  warned m hm := by
    have hm : .cycleMet m ∈ es := by simpa using hm
    rcases h.warned m hm with ⟨⟨path, hpath⟩, hbusy⟩ | hreturns
    · by_cases heq : l = m
      · subst heq
        exact .inr ⟨path, here, unsettled, hpath⟩
      · exact .inl ⟨⟨path, .through heq unsettled hpath⟩,
          ((Scene.busy_raised w.scene hl m).mp hbusy).resolve_left heq⟩
    · exact .inr hreturns
  began m hm := by
    simp only [List.mem_cons, Event.readBegan.injEq, List.mem_append, reduceCtorEq,
      List.not_mem_nil, or_false] at hm
    rcases hm with rfl | hm
    · exact ⟨here, unsettled⟩
    · exact h.began m hm
  still hrate := h.still hrate

end World.Passes

/-! ## The terms of evaluations -/

/-- The links to which a call leads. -/
def Call.Leads (sc : Scene α V) (l : LinkId) : Call α V M → List Part → Prop
  | .read slot _ => sc.SlotLeads l slot
  | .sample a _ => sc.AnimationLeads l a
  | .evaluateIn a _ _ => sc.AnimationLeads l a
  | _ => fun _ => False

def Call.isEvaluation : Call α V M → Bool
  | .read _ _ | .sample _ _ | .evaluateIn _ _ _ => true
  | _ => false

/-- Evaluations that do not lead to certain links pass through the scene. The memory may be recalled
by host code. -/
def evaluationTerms (sc : Scene α V) (memory : M) (away : LinkId → Prop) : Terms α V M where
  admits c w := w.Resembles sc memory ∧
    match c with
    | .recall => True
    | c => c.isEvaluation = true ∧ ∀ l, away l → ∀ path, ¬ c.Leads sc l path
  grants
    | .recall, w, a, w' => a = w.memory ∧ w' = w
    | c, w, _, w' => ∃ es, w.Passes sc (fun m => ∃ path, c.Leads sc m path) es w'

/-- The alteration is not noticed, unless by looking at certain links. -/
structure World.Unnoticed (τ : World α V M → World α V M) (away : LinkId → Prop) : Prop where
  note : ∀ w e, (τ w).note e = τ (w.note e)
  modifyAnimation : ∀ w a f, (τ w).modifyAnimation a f = τ (w.modifyAnimation a f)
  raise : ∀ w l b, ((τ w).modifyLink l fun link => { link with busy := b }) =
    τ (w.modifyLink l fun link => { link with busy := b })
  animation : ∀ w a, (τ w).scene.animation a = w.scene.animation a
  memory : ∀ w, (τ w).memory = w.memory
  link : ∀ (w : World α V M) (l : LinkId), ¬ away l → (τ w).scene.links[l]? = w.scene.links[l]?

/-- The act, begun in a world that resembles the scene, is an evaluation that comes to the given
links. -/
def Act.Evaluates (sc : Scene α V) (memory : M) (away : LinkId → Prop)
    (τ : World α V M → World α V M) (reach : LinkId → Prop) (p : Act α V M β) : Prop :=
  ∀ w, w.Resembles sc memory → p.Meets (evaluationTerms sc memory away) τ
    (fun _ w' => ∃ es, w.Passes sc reach es w') w

namespace Act.Evaluates

variable {sc : Scene α V} {memory : M} {away : LinkId → Prop} {τ : World α V M → World α V M}
  {reach reach' : LinkId → Prop} {p : Act α V M β}

theorem done (b : β) : (Act.done b).Evaluates sc memory away τ reach :=
  fun w _ => ⟨[], .refl w⟩

theorem mono (h : p.Evaluates sc memory away τ reach) (hsub : ∀ m, reach m → reach' m) :
    p.Evaluates sc memory away τ reach' :=
  fun w hw => (h w hw).mono fun _ _ ⟨es, hes⟩ => ⟨es, hes.mono hsub⟩

theorem bind {f : β → Act α V M γ} (h : p.Evaluates sc memory away τ reach)
    (hf : ∀ b, (f b).Evaluates sc memory away τ reach) :
    (p.bind f).Evaluates sc memory away τ reach := by
  refine fun w hw => Meets.bind ((h w hw).mono fun b w₁ ⟨es, hes⟩ => ?_)
  exact (hf b w₁ (hes.resembles hw)).mono fun _ _ ⟨es', hes'⟩ => ⟨es ++ es', hes.trans hes'⟩

/-- A call to which the terms apply. -/
theorem ask {c : Call α V M} (hc : c.isEvaluation = true)
    (apart : ∀ l, away l → ∀ path, ¬ c.Leads sc l path) :
    (Act.ask c).Evaluates sc memory away τ fun m => ∃ path, c.Leads sc m path := by
  intro w hw
  cases c with
  | read => exact ⟨⟨hw, hc, apart⟩, fun _ _ h => h⟩
  | sample => exact ⟨⟨hw, hc, apart⟩, fun _ _ h => h⟩
  | evaluateIn => exact ⟨⟨hw, hc, apart⟩, fun _ _ h => h⟩
  | _ => exact absurd hc Bool.false_ne_true

section Rules

variable {clock : Clock α}

/-- A read of a slot that is a part of an item. -/
theorem readSlot {s : Slot α V} (hsub : ∀ m path, sc.SlotLeads m s path → reach m)
    (apart : ∀ m, away m → ¬ reach m) :
    (Act.ask (.read s clock) : Act α V M α).Evaluates sc memory away τ reach := by
  refine mono (ask rfl fun m hm path hpath => ?_) fun m ⟨path, hpath⟩ => hsub m path hpath
  exact apart m hm (hsub m path hpath)

theorem sampleSegment {a : AnimationId} (hsub : ∀ m path, sc.AnimationLeads m a path → reach m)
    (apart : ∀ m, away m → ¬ reach m) :
    (Act.ask (.sample a clock) : Act α V M (Sample α)).Evaluates sc memory away τ reach := by
  refine mono (ask rfl fun m hm path hpath => ?_) fun m ⟨path, hpath⟩ => hsub m path hpath
  exact apart m hm (hsub m path hpath)

/-- A part of an animation leads where the animation leads. -/
theorem leads_of_slot {a : AnimationId} {st : Strategy α V} (own : (sc.animation a).strategy = st)
    (part : Part) {s : Slot α V} (hs : st.slotAt? part = some s) (m : LinkId) (path : List Part)
    (h : sc.SlotLeads m s path) : ∃ path, sc.AnimationLeads m a path :=
  ⟨part :: path, .slot (own ▸ hs) h⟩

variable [Scalar α]

theorem ratio {time : TimeSource α V}
    (hsub : ∀ s, time = .slot s → ∀ m path, sc.SlotLeads m s path → reach m)
    (apart : ∀ m, away m → ¬ reach m) :
    (Evaluate.ratio (M := M) clock time).Evaluates sc memory away τ reach := by
  cases time with
  | slot s => exact readSlot (hsub s rfl) apart
  | pace p => exact done _

omit [Scalar α] in
theorem borrowing (a : AnimationId) (unnoticed : World.Unnoticed τ away)
    (h : p.Evaluates sc memory away τ reach) :
    (Evaluate.borrowing a p).Evaluates sc memory away τ reach := by
  intro w hw
  have hlent : (w.modifyAnimation a fun anim =>
      { anim with sampling := anim.sampling + 1 }).Resembles sc memory := by
    refine { hw with strategy := ?_, hook := ?_ }
    · intro b
      rw [World.modifyAnimation_scene, Scene.strategy_modifyAnimation (by exact fun _ => rfl)]
      exact hw.strategy b
    · intro b
      rw [World.modifyAnimation_scene, Scene.hook_modifyAnimation (by exact fun _ => rfl)]
      exact hw.hook b
  simp only [Evaluate.borrowing, bind_eq_bind, modifyAnimation_bind]
  refine ⟨unnoticed.modifyAnimation w a _, Meets.bind ((h _ hlent).mono ?_)⟩
  rintro b w₁ ⟨es, hes⟩
  exact ⟨unnoticed.modifyAnimation w₁ a _, es, hes.lent⟩

theorem interpolation {a : AnimationId} {i : Interpolation α V}
    (own : (sc.animation a).strategy = .interpolate i)
    (apart : ∀ m, away m → ¬ ∃ path, sc.AnimationLeads m a path) :
    (Evaluate.interpolation (M := M) clock i).Evaluates sc memory away τ
      fun m => ∃ path, sc.AnimationLeads m a path := by
  refine bind (ratio (fun s hs => leads_of_slot own .time ?_) apart) fun t => ?_
  · rw [Strategy.slotAt?, hs]
  refine bind (readSlot (leads_of_slot own .start rfl) apart) fun x => ?_
  exact bind (readSlot (leads_of_slot own .finish rfl) apart) fun y => done _

theorem chain (segments : List AnimationId)
    (hsegment : ∀ s ∈ segments, ∀ m path, sc.AnimationLeads m s path → reach m)
    (apart : ∀ m, away m → ¬ reach m) :
    (Evaluate.chain (M := M) clock segments).Evaluates sc memory away τ reach := by
  induction segments with
  | nil => exact done _
  | cons segment rest ih =>
      have hhere := hsegment segment List.mem_cons_self
      cases rest with
      | nil => exact sampleSegment hhere apart
      | cons next rest =>
          refine bind (sampleSegment hhere apart) fun s => ?_
          cases s with
          | value v => exact done _
          | ended v => exact ih fun s hs => hsegment s (List.mem_cons_of_mem _ hs)

variable {host : Host α V M} {code : Computation α V}

theorem rate {a : AnimationId} {source : Slot α V} {last : Reading α} {current : α}
    (own : (sc.animation a).strategy = .rate source last current)
    (unnoticed : World.Unnoticed τ away)
    (apart : ∀ m, away m → ¬ ∃ path, sc.AnimationLeads m a path) (last' : Reading α)
    (current' : α) :
    (Evaluate.strategy host a clock (.rate source last' current')).Evaluates sc memory away τ
      fun m => ∃ path, sc.AnimationLeads m a path := by
  rw [Evaluate.strategy]
  split
  · exact done _
  · refine bind (readSlot (leads_of_slot own .source rfl) apart) fun v w hw => ?_
    exact ⟨unnoticed.modifyAnimation w a _, [], .renew hw own _ _⟩

/-- The strategy that an animation has in a world that resembles the scene. A rate may remember
something else there. -/
theorem strategy {a : AnimationId} {s : Strategy α V} (renews : (sc.animation a).strategy.Renews s)
    (unnoticed : World.Unnoticed τ away)
    (apart : ∀ m, away m → ¬ ∃ path, sc.AnimationLeads m a path) :
    (Evaluate.strategy host a clock s).Evaluates sc memory away τ
      fun m => ∃ path, sc.AnimationLeads m a path := by
  generalize own : (sc.animation a).strategy = s₀ at renews
  cases renews with
  | rate => exact rate own unnoticed apart _ _
  | same =>
      cases s with
      | interpolate i => exact borrowing a unnoticed (interpolation own apart)
      | bezier points time extend =>
          refine bind (ratio (fun s hs => leads_of_slot own .time ?_) apart) fun t => done _
          rw [hs, Strategy.slotAt?]
      | wrap low high source =>
          refine bind (readSlot (leads_of_slot own .low rfl) apart) fun x => ?_
          refine bind (readSlot (leads_of_slot own .high rfl) apart) fun y => ?_
          exact bind (readSlot (leads_of_slot own .source rfl) apart) fun v => done _
      | rate source last current => exact rate own unnoticed apart last current
      | chain segments =>
          refine chain segments (fun s hs m path h => ?_) apart
          obtain ⟨position, hposition⟩ := List.mem_iff_getElem?.mp hs
          exact ⟨.segment position :: path, .segment (own ▸ hposition) h⟩
      | custom s => exact done _

theorem sample (unnoticed : World.Unnoticed τ away) {a : AnimationId} (through : Option LinkId)
    (apart : ∀ m, away m → ¬ ∃ path, sc.AnimationLeads m a path) :
    (Evaluate.sample host through a clock).Evaluates sc memory away τ
      fun m => ∃ path, sc.AnimationLeads m a path := by
  intro w hw
  have begun : w.Passes sc (fun m => ∃ path, sc.AnimationLeads m a path)
      [.sampleBegan a through] (w.note (.sampleBegan a through)) := .note w rfl
  have hw₁ := begun.resembles hw
  have hstrategy : (Evaluate.strategy host a clock
      ((w.note (.sampleBegan a through)).scene.animation a).strategy).Evaluates sc memory away τ
      fun m => ∃ path, sc.AnimationLeads m a path := strategy (hw₁.strategy a) unnoticed apart
  simp only [Evaluate.sample, bind_eq_bind, note_bind, animation_bind, meets_update, meets_look,
    unnoticed.animation, true_and]
  refine ⟨unnoticed.note w _, Meets.bind ((hstrategy _ hw₁).mono ?_)⟩
  rintro s w₂ ⟨es, hes⟩
  exact ⟨unnoticed.note w₂ _, _, (begun.trans hes).trans (.note w₂ rfl)⟩

omit [Scalar α] in
theorem routine {r : Routine α V M β} {b : β} (h : r.value? memory = some b) :
    r.perform.Evaluates sc memory away τ reach := by
  induction r with
  | done c => exact done c
  | call c next ih =>
      cases c with
      | «recall» =>
          intro w hw
          refine ⟨⟨hw, trivial⟩, ?_⟩
          rintro _ _ ⟨rfl, rfl⟩
          rw [hw.memory]
          exact ih memory h _ hw
      | _ => simp [Routine.value?] at h

theorem evaluateIn (unnoticed : World.Unnoticed τ away) (computes : host.Computes memory code)
    {a : AnimationId} (l : LinkId) (apart : ∀ m, away m → ¬ ∃ path, sc.AnimationLeads m a path) :
    (Evaluate.evaluateIn host a l clock).Evaluates sc memory away τ
      fun m => ∃ path, sc.AnimationLeads m a path := by
  refine bind (sample unnoticed (some l) apart) fun s => ?_
  cases s with
  | value v => exact done v
  | ended v =>
      intro w hw
      simp only [bind_eq_bind, animation_bind, meets_look, unnoticed.animation, true_and]
      cases (w.scene.animation a).hook with
      | none => exact ⟨[], .refl w⟩
      | some hook =>
          have ran : w.Passes sc (fun m => ∃ path, sc.AnimationLeads m a path)
              [.hookRun hook l v] (w.note (.hookRun hook l v)) := .note w rfl
          have hcode : (host.hook hook l v).perform.Evaluates sc memory away τ
              fun m => ∃ path, sc.AnimationLeads m a path := routine (computes.hook hook l v)
          simp only [note_bind, meets_update]
          refine ⟨unnoticed.note w _, (hcode _ (ran.resembles hw)).mono ?_⟩
          rintro _ w' ⟨es, hes⟩
          exact ⟨_, ran.trans hes⟩

theorem readLink (unnoticed : World.Unnoticed τ away) (computes : host.Computes memory code)
    {l : LinkId} (apart : ∀ m, away m → ¬ ∃ path, sc.SlotLeads m (.link l) path) :
    (Evaluate.readLink host l clock).Evaluates sc memory away τ
      fun m => ∃ path, sc.SlotLeads m (.link l) path := by
  intro w hw
  have hseen : ¬ away l := fun h => apart l h ⟨[], .here⟩
  simp only [Evaluate.readLink, bind_eq_bind, link?_bind, meets_look, unnoticed.link w l hseen,
    true_and]
  cases hl : w.scene.links[l]? with
  | none => exact ⟨[], .refl w⟩
  | some k =>
      cases hpin : k.pin with
      | some v =>
          simp only [hpin]
          exact ⟨[], .refl w⟩
      | none =>
          simp only [hpin, note_bind, modifyLink_bind]
          split
          · rename_i hbusy
            refine ⟨unnoticed.note w _, unnoticed.raise _ l _, _, .cut w ⟨[], .here⟩ ?_⟩
            rw [Scene.link, hl]
            exact hbusy
          · -- The link is found unsettled in the scene, too.
            obtain ⟨here, hhere, htarget, hsame⟩ := Scene.link_of_map_eq (hw.link l).symm hl
            have unsettled : sc.Unsettled l here := ⟨hhere, hsame.trans hpin⟩
            have hinner : ∀ m, away m → ¬ ∃ path, sc.AnimationLeads m here.target path := by
              rintro m hm ⟨path, hpath⟩
              exact apart m hm ⟨path, .through (fun heq => hseen (heq ▸ hm)) unsettled hpath⟩
            have entered : (w.enter l).Resembles sc memory :=
              ⟨hw.memory, hw.strategy, hw.hook, fun m => by
                rw [World.enter, World.modifyLink_scene, Scene.map_setBusy]
                exact hw.link m⟩
            have hevaluate : (Evaluate.evaluateIn host here.target l clock).Evaluates sc memory
                away τ fun m => ∃ path, sc.AnimationLeads m here.target path :=
              evaluateIn unnoticed computes l hinner
            refine ⟨unnoticed.note w _, unnoticed.raise _ l true, ?_⟩
            rw [← htarget]
            refine Meets.bind ((hevaluate _ entered).mono ?_)
            rintro v w₁ ⟨es, hes⟩
            refine ⟨unnoticed.raise w₁ l false, unnoticed.note _ _, _, .read unsettled ?_ hes v⟩
            exact (Array.getElem?_eq_some_iff.mp hl).1

end Rules

end Act.Evaluates

/-- With pure host code, evaluations keep to their terms. -/
theorem evaluationTerms_sound [Scalar α] {host : Host α V M} {sc : Scene α V} {memory : M}
    {away : LinkId → Prop} {τ : World α V M → World α V M} {code : Computation α V}
    (unnoticed : World.Unnoticed τ away) (computes : host.Computes memory code) :
    (evaluationTerms sc memory away).Sound τ host := by
  rintro c w ⟨hw, hc⟩
  cases c with
  | read slot clock =>
      have apart : ∀ m, away m → ¬ ∃ path, sc.SlotLeads m slot path :=
        fun m hm ⟨path, h⟩ => hc.2 m hm path h
      cases slot with
      | constant v => exact ⟨[], .refl w⟩
      | link l => exact Act.Evaluates.readLink unnoticed computes apart w hw
      | external source =>
          have noted : w.Passes sc (fun m => ∃ path, sc.SlotLeads m (.external source) path)
              [.sourceRead source] (w.note (.sourceRead source)) := .note w rfl
          have hcode : (host.source source).perform.Evaluates sc memory away τ
              fun m => ∃ path, sc.SlotLeads m (.external source) path :=
            Act.Evaluates.routine (computes.source source)
          refine ⟨unnoticed.note w _, ?_⟩
          exact (hcode _ (noted.resembles hw)).mono fun _ w' ⟨es, hes⟩ => ⟨_, noted.trans hes⟩
  | sample a clock =>
      exact Act.Evaluates.sample unnoticed none
        (fun m hm ⟨path, h⟩ => hc.2 m hm path h) w hw
  | evaluateIn a l clock =>
      exact Act.Evaluates.evaluateIn unnoticed computes l
        (fun m hm ⟨path, h⟩ => hc.2 m hm path h) w hw
  | «recall» =>
      refine ⟨?_, rfl, rfl⟩
      show Act.done (τ w).memory = Act.done w.memory
      rw [unnoticed.memory]
  | _ => exact absurd hc.1 Bool.false_ne_true

end Inbetween
