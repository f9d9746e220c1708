import Inbetween.Proofs.Annotations
import Inbetween.Proofs.Contracts
import Inbetween.Proofs.Whole

/-!
# Chains of chains

A chain may stand among the segments of another chain. Then its own segments could as well stand
there themselves: the sample is the same, and everything happens in the same order. All that is
missing from the journal is that the inner chain has been sampled.

The last segment of a chain is treated unlike the others, because a chain passes its sample on
whether it has ended or not. This difference goes away if a chain is seen as what is done behind a
sample that has been taken: the next segment takes over if the last one has ended. In this form
chains are put together as their lists are, and only an empty chain falls out of line.
-/

namespace Inbetween

open Act Evaluate

variable {α : Type} {V : Vocabulary} {M : Type}

/-! ## Segments stay -/

/-- The segments of a chain. -/
def Strategy.segments? : Strategy α V → Option (List AnimationId)
  | .chain segments => some segments
  | _ => none

theorem Strategy.eq_of_segments? {s : Strategy α V} {segments : List AnimationId}
    (h : s.segments? = some segments) : s = .chain segments := by
  cases s with
  | chain known =>
      obtain rfl := Option.some.inj h
      rfl
  | _ => cases h

theorem Strategy.segments?_of_interpolation? {s : Strategy α V} {i : Interpolation α V}
    (h : s.interpolation? = some i) : s.segments? = none := by
  rw [eq_of_interpolation? h]
  rfl

/-- A name that nothing has stands for a chain. -/
theorem Scene.lt_size_of_segments? {sc : Scene α V} {a : AnimationId}
    (h : (sc.animation a).strategy.segments? = none) : a < sc.animations.size := by
  by_contra hge
  rw [Scene.animation_of_size_le (Nat.not_lt.mp hge)] at h
  cases h

/-- Chains stay as they are, and nothing else becomes a chain. -/
def segmentsContract (α : Type) (V : Vocabulary) (M : Type) : Contract α V M where
  holds _ := True
  moves w w' := w.scene.animations.size ≤ w'.scene.animations.size ∧
    ∀ a < w.scene.animations.size,
      (w'.scene.animation a).strategy.segments? = (w.scene.animation a).strategy.segments?
  refl _ := ⟨Nat.le_refl _, fun _ _ => rfl⟩
  trans h h' := ⟨h.1.trans h'.1, fun a ha => (h'.2 a (ha.trans_le h.1)).trans (h.2 a ha)⟩

namespace segmentsContract

variable {w w' : World α V M} {a : AnimationId}

theorem allows_same (h : w'.scene.animations = w.scene.animations) :
    (segmentsContract α V M).Allows w w' := by
  refine ⟨trivial, (congrArg Array.size h).ge, ?_⟩
  intro a _
  rw [Scene.animation, h]
  rfl

theorem allows_grows {ss : List (Strategy α V)} {sc : Scene α V} (h : w.scene.Grows ss sc)
    (hw' : w'.scene = sc) : (segmentsContract α V M).Allows w w' := by
  refine ⟨trivial, ?_, ?_⟩
  · rw [hw', h.size]
    exact Nat.le_add_right _ _
  · intro a ha
    rw [hw', h.animation_of_lt ha]

theorem allows_modifyAnimation {f : Animation α V → Animation α V}
    (hf : (f (w.scene.animation a)).strategy.segments? =
      (w.scene.animation a).strategy.segments?) :
    (segmentsContract α V M).Allows w (w.modifyAnimation a f) := by
  refine ⟨trivial, (Array.size_modify ..).ge, ?_⟩
  intro b _
  rw [World.modifyAnimation_scene, Scene.animation_modifyAnimation]
  split
  · rename_i hab
    obtain ⟨rfl, -⟩ := hab
    exact hf
  · rfl

/-- A chain stays what it is. -/
theorem strategy_eq {segments : List AnimationId} (h : (segmentsContract α V M).Allows w w')
    (ha : a < w.scene.animations.size)
    (hsegments : (w.scene.animation a).strategy = .chain segments) :
    (w'.scene.animation a).strategy = .chain segments := by
  apply Strategy.eq_of_segments?
  rw [h.2.2 a ha, hsegments]
  rfl

theorem welcomes : (segmentsContract α V M).Welcomes where
  noted _ _ _ := allows_same rfl
  added _ _ _ h _ := allows_grows h rfl
  linked _ _ h _ := allows_grows h rfl
  remembered _ _ _ := allows_same rfl

variable [Scalar α] {host : Host α V M}

/-- A rate is not a chain, and becomes none while it is read. -/
theorem keeps_strategy (host : Host α V M) (a : AnimationId) (clock : Clock α)
    (w : World α V M) :
    (strategy host a clock (w.scene.animation a).strategy).Keeps (segmentsContract α V M)
      (fun _ w' => (segmentsContract α V M).Allows w w') w := by
  cases hs : (w.scene.animation a).strategy.segments? with
  | some segments =>
      rw [Strategy.eq_of_segments? hs]
      exact (onlyCalls_chain clock segments).keeps trivial
  | none =>
      have ha : a < w.scene.animations.size := Scene.lt_size_of_segments? hs
      cases hi : (w.scene.animation a).strategy.interpolation? with
      | none =>
          refine Contract.keeps_unlent a clock _ hi ?_ trivial
          intro w' h source last current
          apply allows_modifyAnimation
          rw [h.2.2 a ha, hs]
          rfl
      | some i =>
          rw [Strategy.eq_of_interpolation? hi, strategy, keeps_borrowing]
          have hlend : (segmentsContract α V M).Allows w
              (w.modifyAnimation a fun anim => { anim with sampling := anim.sampling + 1 }) :=
            allows_modifyAnimation rfl
          apply ((onlyCalls_interpolation clock i).keeps trivial).mono
          intro _ w₂ h₂
          exact (hlend.trans h₂).trans (allows_modifyAnimation rfl)

theorem keeps_sample (host : Host α V M) (through : Option LinkId) (a : AnimationId)
    (clock : Clock α) (w : World α V M) :
    (sample host through a clock).Keeps (segmentsContract α V M)
      (fun _ w' => (segmentsContract α V M).Allows w w') w := by
  simp only [sample, bind_eq_bind, keeps_bind, keeps_note, keeps_animation]
  have hbegan : (segmentsContract α V M).Allows w (w.note (.sampleBegan a through)) :=
    allows_same rfl
  apply (keeps_strategy host a clock (w.note (.sampleBegan a through))).mono
  intro s w₁ h₁
  exact (hbegan.trans h₁).trans (allows_same rfl)

theorem sound (host : Host α V M) : (segmentsContract α V M).Sound host := by
  have hevaluate : ∀ (w : World α V M) (a : AnimationId) (l : LinkId) (clock : Clock α),
      (evaluateIn host a l clock).Keeps (segmentsContract α V M)
        (fun _ w' => (segmentsContract α V M).Allows w w') w := by
    intro w a l clock
    exact Contract.keeps_evaluateIn (keeps_sample host (some l) a clock w)
      fun _ _ _ => allows_same rfl
  apply welcomes.sound
  · intro w _ s
    exact allows_same rfl
  · intro w _ a clock
    exact keeps_sample host none a clock w
  · intro w _ a l clock
    exact hevaluate w a l clock
  · intro w _ l clock
    exact Contract.keeps_readLink (fun {w} _ a => hevaluate w a l clock)
      (fun _ => allows_same rfl) (fun _ => allows_same rfl) (fun _ _ => allows_same rfl) trivial
  · intro w _ a _
    exact allows_modifyAnimation (w := w) rfl
  · intro w _ a _
    exact allows_modifyAnimation (w := w) rfl
  · intro w _ a change i hi _
    apply allows_modifyAnimation (w := w)
    exact (Strategy.segments?_of_interpolation? hi).symm
  · intro w _ a hook _
    exact allows_modifyAnimation (w := w) rfl
  · intro w _ l pin
    exact allows_same rfl

end segmentsContract

/-! ## Handing over -/

/-- Goes on behind a sample that has been taken. If it has ended, the next segment takes over. -/
def Evaluate.handOver (clock : Clock α) : Sample α → List AnimationId → Act α V M (Sample α)
  | s, [] => .done s
  | s, segment :: rest =>
    if s.isEnded then (ask (.sample segment clock)).bind fun s => handOver clock s rest
    else .done s

@[simp] theorem handOver_value (clock : Clock α) (v : α) (segments : List AnimationId) :
    (handOver clock (.value v) segments : Act α V M (Sample α)) = .done (.value v) := by
  cases segments with
  | nil => rfl
  | cons segment rest => rfl

theorem handOver_ended (clock : Clock α) (v : α) (segment : AnimationId)
    (rest : List AnimationId) :
    (handOver clock (.ended v) (segment :: rest) : Act α V M (Sample α)) =
      (ask (.sample segment clock)).bind fun s => handOver clock s rest := rfl

theorem handOver_append (clock : Clock α) (s : Sample α) (xs ys : List AnimationId) :
    (handOver clock s (xs ++ ys) : Act α V M (Sample α)) =
      (handOver clock s xs).bind fun s => handOver clock s ys := by
  induction xs generalizing s with
  | nil => rfl
  | cons x xs ih =>
      cases s with
      | value v => simp
      | ended v =>
          rw [List.cons_append, handOver_ended, handOver_ended, bind_assoc]
          exact congrArg _ (funext ih)

/-- A chain with segments begins as if something before it had ended. -/
theorem chain_eq_handOver [Scalar α] (clock : Clock α) (v : α) {segments : List AnimationId}
    (h : segments ≠ []) :
    (chain clock segments : Act α V M (Sample α)) = handOver clock (.ended v) segments := by
  induction segments generalizing v with
  | nil => exact absurd rfl h
  | cons segment rest ih =>
      rw [handOver_ended]
      cases rest with
      | nil => exact (bind_done _).symm
      | cons next rest =>
          apply congrArg (Act.bind _)
          funext s
          cases s with
          | value u => rfl
          | ended u => exact ih u (List.cons_ne_nil next rest)

theorem onlyCalls_handOver (clock : Clock α) (s : Sample α) (segments : List AnimationId) :
    (handOver clock s segments : Act α V M (Sample α)).OnlyCalls := by
  induction segments generalizing s with
  | nil => trivial
  | cons segment rest ih =>
      cases s with
      | value v => trivial
      | ended v => exact ih

theorem unread_handOver (clock : Clock α) (s : Sample α) (segments : List AnimationId) :
    (handOver clock s segments : Act α V M (Sample α)).Unread :=
  .of_onlyCalls (onlyCalls_handOver clock s segments)

section Chains

variable [Scalar α] {host : Host α V M} {clock : Clock α} {w w' : World α V M}

/-! ## Nothing behind the first segment that goes on -/

/-- The animations are sampled one after the other, and report these samples. -/
def Host.Takes (host : Host α V M) (clock : Clock α) :
    List (AnimationId × Sample α) → World α V M → World α V M → Prop
  | [], w, w' => w' = w
  | (a, s) :: rest, w, w' => ∃ w₁,
    host.Answers (.sample a clock) w s w₁ ∧ host.Takes clock rest w₁ w'

/-- Either nothing takes over, or the segments are sampled up to the first one that has not ended,
and otherwise up to the last one. -/
theorem cases_of_yields_handOver {s s' : Sample α} {segments : List AnimationId}
    (h : (handOver clock s segments).Yields host w s' w') :
    (s' = s ∧ w' = w ∧ (s.isEnded = true → segments = [])) ∨
      s.isEnded = true ∧ ∃ passed last rest, segments = passed.map Prod.fst ++ last :: rest ∧
        (∀ taken ∈ passed, taken.2.isEnded = true) ∧ (s'.isEnded = true → rest = []) ∧
        host.Takes clock (passed ++ [(last, s')]) w w' := by
  induction segments generalizing s w with
  | nil =>
      obtain ⟨rfl, rfl⟩ := yields_done.mp h
      exact Or.inl ⟨rfl, rfl, fun _ => rfl⟩
  | cons segment segments ih =>
      cases s with
      | value v =>
          rw [handOver_value] at h
          obtain ⟨rfl, rfl⟩ := yields_done.mp h
          exact Or.inl ⟨rfl, rfl, nofun⟩
      | ended v =>
          refine Or.inr ⟨rfl, ?_⟩
          rw [handOver_ended, yields_bind] at h
          obtain ⟨s₁, w₁, hask, hnext⟩ := h
          have htake := yields_ask.mp hask
          rcases ih hnext with
            ⟨rfl, rfl, hlast⟩ | ⟨hs₁, passed, last, rest, rfl, hpassed, hlast, htakes⟩
          · exact ⟨[], segment, segments, rfl, nofun, hlast, w', htake, rfl⟩
          · refine ⟨(segment, s₁) :: passed, last, rest, rfl, ?_, hlast, w₁, htake, htakes⟩
            intro taken htaken
            rcases List.mem_cons.mp htaken with rfl | htaken
            · exact hs₁
            · exact hpassed taken htaken

/-- Behind samples that have all ended, the next segment takes over. -/
theorem Host.Takes.handOver {passed : List (AnimationId × Sample α)} {segments : List AnimationId}
    {w₁ : World α V M} {s : Sample α} (htakes : host.Takes clock passed w w₁)
    (hpassed : ∀ taken ∈ passed, taken.2.isEnded = true) (v : α)
    (h : ∀ u, (handOver clock (.ended u) segments).Yields host w₁ s w') :
    (Evaluate.handOver clock (.ended v) (passed.map Prod.fst ++ segments)).Yields host w s w' := by
  induction passed generalizing v w with
  | nil =>
      obtain rfl := htakes
      exact h v
  | cons taken passed ih =>
      obtain ⟨a, s₁⟩ := taken
      obtain ⟨w₂, htake, hrest⟩ := htakes
      obtain ⟨hs₁, hbehind⟩ := List.forall_mem_cons.mp hpassed
      rw [List.map_cons, List.cons_append, handOver_ended]
      apply (yields_ask.mpr htake).bind
      cases s₁ with
      | value u => cases hs₁
      | ended u => exact ih hrest hbehind u

theorem Host.takes_append {row row' : List (AnimationId × Sample α)} :
    host.Takes clock (row ++ row') w w' ↔
      ∃ w₁, host.Takes clock row w w₁ ∧ host.Takes clock row' w₁ w' := by
  induction row generalizing w with
  | nil =>
      constructor
      · intro h
        exact ⟨w, rfl, h⟩
      · rintro ⟨w₁, rfl, h⟩
        exact h
  | cons taken row ih =>
      constructor
      · rintro ⟨w₂, htake, hrest⟩
        obtain ⟨w₁, h, h'⟩ := ih.mp hrest
        exact ⟨w₁, ⟨w₂, htake, h⟩, h'⟩
      · rintro ⟨w₁, ⟨w₂, htake, h⟩, h'⟩
        exact ⟨w₂, htake, ih.mpr ⟨w₁, h, h'⟩⟩

/-- The sample of a chain with segments comes between two marks. It takes the segments up to the
first one that has not ended, or else all of them, and does nothing else. -/
theorem answers_chain_iff_takes {c : AnimationId} {segments : List AnimationId} {s : Sample α}
    (hsegments : segments ≠ []) (hc : (w.scene.animation c).strategy = .chain segments) :
    host.Answers (.sample c clock) w s w' ↔
      ∃ passed last rest w₁, segments = passed.map Prod.fst ++ last :: rest ∧
        (∀ taken ∈ passed, taken.2.isEnded = true) ∧ (s.isEnded = true → rest = []) ∧
        host.Takes clock (passed ++ [(last, s)]) (w.note (.sampleBegan c none)) w₁ ∧
        w' = w₁.note (.sampleFinished c none s) := by
  rw [Host.answers_iff]
  show (sample host none c clock).Yields host w s w' ↔ _
  rw [yields_sample_iff, hc]
  show (∃ w₁, (chain clock segments).Yields host _ s w₁ ∧ _) ↔ _
  rw [chain_eq_handOver clock 0.0 hsegments]
  constructor
  · rintro ⟨w₁, hy, hw'⟩
    rcases cases_of_yields_handOver hy with
      ⟨-, -, hnone⟩ | ⟨-, passed, last, rest, hsplit, hpassed, hlast, htakes⟩
    · exact absurd (hnone rfl) hsegments
    · exact ⟨passed, last, rest, w₁, hsplit, hpassed, hlast, htakes, hw'⟩
  · rintro ⟨passed, last, rest, w₁, rfl, hpassed, hlast, htakes, hw'⟩
    obtain ⟨w₂, hbefore, w₃, htake, rfl⟩ := Host.takes_append.mp htakes
    refine ⟨_, ?_, hw'⟩
    apply hbefore.handOver hpassed
    intro u
    rw [handOver_ended]
    apply (yields_ask.mpr htake).bind
    cases s with
    | value v => simp
    | ended v =>
        obtain rfl := hlast rfl
        exact yields_done.mpr ⟨rfl, rfl⟩

/-! ## Chains in chains -/

theorem Host.Takes.allows {k : Contract α V M} (hk : k.Sound host)
    {row : List (AnimationId × Sample α)} (hw : k.holds w) (h : host.Takes clock row w w') :
    k.Allows w w' := by
  induction row generalizing w with
  | nil =>
      obtain rfl := h
      exact ⟨hw, k.refl _⟩
  | cons taken row ih =>
      obtain ⟨w₁, htake, hrest⟩ := h
      have h₁ : k.Allows w w₁ := hk.answers hw htake
      exact h₁.trans (ih h₁.1 hrest)

/-- It is taken down that one of these chains is sampled on its own. -/
def Event.marks (chains : List AnimationId) : Event α V → Bool
  | .sampleBegan a none => chains.contains a
  | .sampleFinished a none _ => chains.contains a
  | _ => false

/-- An inner chain at the front takes its own segments, and then the others take over. -/
theorem matches_inner {mark : Event α V → Bool} {inner : AnimationId} {ys zs : List AnimationId}
    (began : mark (.sampleBegan inner none) = true)
    (finished : ∀ s, mark (.sampleFinished inner none s) = true) (hys : ys ≠ [])
    (hinner : (w.scene.animation inner).strategy = .chain ys) (hw : w.Alike mark w') (v : α) :
    (handOver clock (.ended v) (inner :: zs)).Matches host mark
      (handOver clock (.ended v) (ys ++ zs)) w w' := by
  rw [handOver_ended, handOver_append]
  apply Matches.bind
  · apply Matches.sampled finished
    rw [hinner, ← chain_eq_handOver clock v hys]
    apply Matches.refl (.of_onlyCalls (onlyCalls_chain clock ys))
    exact (World.Alike.marked began w).symm.trans hw
  · intro s w₁ w₂ _ halike
    exact Matches.refl (unread_handOver clock s zs) halike

/-- The inner chain takes its segments where its sample is wanted, be it first, in between or
last. -/
theorem matches_chain_in_chain {xs ys zs : List AnimationId} {outer inner flat : AnimationId}
    (hys : ys ≠ []) (houter : (w.scene.animation outer).strategy = .chain (xs ++ inner :: zs))
    (hinner : (w.scene.animation inner).strategy = .chain ys)
    (hflat : (w.scene.animation flat).strategy = .chain (xs ++ ys ++ zs)) :
    (ask (.sample outer clock)).Matches host (Event.marks [outer, inner, flat])
      (ask (.sample flat clock)) w w := by
  have began : ∀ a ∈ [outer, inner, flat],
      (Event.sampleBegan a none : Event α V).marks [outer, inner, flat] = true :=
    fun a ha => List.contains_iff_mem.mpr ha
  have finished : ∀ a ∈ [outer, inner, flat], ∀ s,
      (Event.sampleFinished a none s : Event α V).marks [outer, inner, flat] = true :=
    fun a ha _ => List.contains_iff_mem.mpr ha
  have hsize : inner < w.scene.animations.size := by
    by_contra hge
    rw [Scene.animation_of_size_le (Nat.not_lt.mp hge)] at hinner
    exact hys (Strategy.chain.inj hinner).symm
  apply Matches.sampled (finished outer (by simp))
  apply Matches.symm
  apply Matches.sampled (finished flat (by simp))
  apply Matches.symm
  rw [houter, hflat]
  show (chain clock (xs ++ inner :: zs)).Matches host _ (chain clock (xs ++ ys ++ zs)) _ _
  rw [chain_eq_handOver clock 0.0 (by simp), chain_eq_handOver clock 0.0 (by simp [hys]),
    List.append_assoc, handOver_append, handOver_append clock _ xs]
  apply Matches.bind
  · apply Matches.refl (unread_handOver clock _ xs)
    exact (World.Alike.marked (began outer (by simp)) w).symm.trans
      (World.Alike.marked (began flat (by simp)) w)
  · intro s w₁ w₂ hbefore halike
    cases s with
    | value v =>
        rw [handOver_value, handOver_value]
        exact Matches.refl (.done _) halike
    | ended v =>
        have hkeeps := (onlyCalls_handOver clock (.ended 0.0) xs).keeps
          (k := segmentsContract α V M) (w := w.note (.sampleBegan outer none)) trivial
        have hallows := (segmentsContract.sound host).yields hkeeps hbefore
        have hstays := segmentsContract.strategy_eq hallows hsize hinner
        exact matches_inner (began inner (by simp)) (finished inner (by simp)) hys hstays halike v

/-- A chain of one segment is that segment. -/
theorem matches_chain_singleton {single a : AnimationId}
    (h : (w.scene.animation single).strategy = .chain [a]) :
    (ask (.sample single clock)).Matches host (Event.marks [single]) (ask (.sample a clock)) w w :=
    by
  apply Matches.sampled (fun s => by simp [Event.marks])
  rw [h]
  show (ask (.sample a clock)).Matches host _ (ask (.sample a clock)) _ _
  apply Matches.refl
  · exact .of_onlyCalls fun _ => trivial
  · exact (World.Alike.marked (by simp [Event.marks]) w).symm

/-- An empty chain does not end, so nothing behind it is sampled. -/
theorem answers_outer_of_empty {xs zs : List AnimationId} {outer inner : AnimationId}
    {row : List (AnimationId × Sample α)} {w₁ : World α V M}
    (hsize : inner < w.scene.animations.size)
    (houter : (w.scene.animation outer).strategy = .chain (xs ++ inner :: zs))
    (hinner : (w.scene.animation inner).strategy = .chain []) (hrow : row.map Prod.fst = xs)
    (hended : ∀ taken ∈ row, taken.2.isEnded = true)
    (htakes : host.Takes clock row (w.note (.sampleBegan outer none)) w₁) :
    host.Answers (.sample outer clock) w (.value 0.0)
      (((w₁.note (.sampleBegan inner none)).note
        (.sampleFinished inner none (.value 0.0))).note
        (.sampleFinished outer none (.value 0.0))) := by
  have hallows := htakes.allows (segmentsContract.sound host) trivial
  have hstays := segmentsContract.strategy_eq hallows hsize hinner
  have htake : host.Answers (.sample inner clock) w₁ (.value 0.0)
      ((w₁.note (.sampleBegan inner none)).note (.sampleFinished inner none (.value 0.0))) := by
    rw [Host.answers_iff]
    apply yields_sample_iff.mpr
    rw [hstays]
    exact ⟨_, yields_done.mpr ⟨rfl, rfl⟩, rfl⟩
  apply (answers_chain_iff_takes (by simp) houter).mpr
  refine ⟨row, inner, zs, _, by rw [hrow], hended, nofun, ?_, rfl⟩
  exact Host.takes_append.mpr ⟨w₁, htakes, _, htake, rfl⟩

/-- **A chain in a chain is as good as its segments.** If it has any, then sampling the outer chain
and sampling the chain in which the segments stand themselves come to the same sample, or both to
none. They leave the same scene, the rates included, and the same memory of the host, and but for
the marks of the three chains the same events in the same order. A chain of one segment is that
segment. No chain comes to a segment behind the first one that has not ended, and an empty chain is
such a segment: it reports zero. -/
theorem chains_compose (host : Host α V M) (clock : Clock α) (w : World α V M) :
    (∀ xs inner ys zs outer flat, ys ≠ [] →
      (w.scene.animation outer).strategy = .chain (xs ++ inner :: zs) →
      (w.scene.animation inner).strategy = .chain ys →
      (w.scene.animation flat).strategy = .chain (xs ++ ys ++ zs) →
      (ask (.sample outer clock)).Matches host (Event.marks [outer, inner, flat])
        (ask (.sample flat clock)) w w) ∧
    (∀ single a, (w.scene.animation single).strategy = .chain [a] →
      (ask (.sample single clock)).Matches host (Event.marks [single])
        (ask (.sample a clock)) w w) ∧
    (∀ c segments s w', segments ≠ [] → (w.scene.animation c).strategy = .chain segments →
      (host.Answers (.sample c clock) w s w' ↔
        ∃ (passed : List (AnimationId × Sample α)) (last : AnimationId) (rest : List AnimationId)
            (w₁ : World α V M), segments = passed.map Prod.fst ++ last :: rest ∧
          (∀ taken ∈ passed, taken.2.isEnded = true) ∧ (s.isEnded = true → rest = []) ∧
          host.Takes clock (passed ++ [(last, s)]) (w.note (.sampleBegan c none)) w₁ ∧
          w' = w₁.note (.sampleFinished c none s))) ∧
    (∀ xs inner zs outer row w₁, inner < w.scene.animations.size →
      (w.scene.animation outer).strategy = .chain (xs ++ inner :: zs) →
      (w.scene.animation inner).strategy = .chain [] → row.map Prod.fst = xs →
      (∀ taken ∈ row, taken.2.isEnded = true) →
      host.Takes clock row (w.note (.sampleBegan outer none)) w₁ →
      host.Answers (.sample outer clock) w (.value 0.0)
        (((w₁.note (.sampleBegan inner none)).note
          (.sampleFinished inner none (.value 0.0))).note
          (.sampleFinished outer none (.value 0.0)))) := by
  refine ⟨?_, ?_, ?_, ?_⟩
  · intro xs inner ys zs outer flat hys houter hinner hflat
    exact matches_chain_in_chain hys houter hinner hflat
  · intro single a h
    exact matches_chain_singleton h
  · intro c segments s w' hsegments hc
    exact answers_chain_iff_takes hsegments hc
  · intro xs inner zs outer row w₁ hsize houter hinner hrow hended htakes
    exact answers_outer_of_empty hsize houter hinner hrow hended htakes

end Chains

/-! ## A chain of chains that counts -/

namespace Nest

/-- A host with one source. -/
def vocabulary : Vocabulary := ⟨Unit, Empty, Empty⟩

/-- The source counts how often it has been read. -/
def host : Host Int vocabulary Int where
  source _ := do
    let count ← Routine.ask .recall
    Routine.ask (.remember (count + 1))
    return count + 1
  hook := Empty.elim
  strategy := Empty.elim

/-- The interpolation is over and ends at the count. The rate of the count goes on. The first chain
stands in the second one, between two places of the interpolation, and the third one has its
segments. -/
def world : World Int vocabulary Int where
  scene :=
    { animations :=
        #[{ strategy := .interpolate
              { start := .constant 0
                finish := .external ()
                time := .slot (.constant 2)
                extend := .constant } },
          { strategy := .rate (.external ()) ⟨0, 0⟩ 0 },
          { strategy := .chain [0, 1] },
          { strategy := .chain [0, 2, 0] },
          { strategy := .chain [0, 0, 1, 0] },
          { strategy := .chain [1] },
          { strategy := .chain [] },
          { strategy := .chain [0, 6, 1] }] }
  memory := 0

/-- The count is read three times either way, the rate has moved on, and the interpolation behind it
is left alone. A chain of the rate alone reads the count once. An empty chain is in the way of the
rate. -/
theorem counts_alike :
    (∃ w₁ w₂, host.Answers (.sample 3 ⟨1, 0⟩) world (.value 3) w₁ ∧
      host.Answers (.sample 4 ⟨1, 0⟩) world (.value 3) w₂ ∧
      w₁.Alike (Event.marks [3, 2, 4]) w₂ ∧ w₂.memory = 3 ∧
      w₂.scene.animations[1]? = some { strategy := .rate (.external ()) ⟨1, 3⟩ 3 }) ∧
    (∃ w₁, host.Answers (.sample 5 ⟨1, 0⟩) world (.value 1) w₁ ∧ w₁.memory = 1) ∧
    ∃ w₁, host.Answers (.sample 7 ⟨1, 0⟩) world (.value 0) w₁ ∧ w₁.memory = 1 ∧
      w₁.scene.animations[1]? = some { strategy := .rate (.external ()) ⟨0, 0⟩ 0 } := by
  obtain ⟨nested, single, taken, empty⟩ := chains_compose host ⟨1, 0⟩ world
  -- Three rows of samples are run by hand.
  have nestedReads : ∃ w₁, host.Takes ⟨1, 0⟩ [(0, .ended 1), (2, .value 3)]
      (world.note (.sampleBegan 3 none)) w₁ ∧ w₁.memory = 3 ∧
      w₁.scene.animations[1]? = some { strategy := .rate (.external ()) ⟨1, 3⟩ 3 } :=
    ⟨_, ⟨_, ⟨4, rfl⟩, _, ⟨5, rfl⟩, rfl⟩, rfl, rfl⟩
  have rateReads : ∃ w₁, host.Answers (.sample 1 ⟨1, 0⟩) world (.value 1) w₁ ∧ w₁.memory = 1 :=
    ⟨_, ⟨4, rfl⟩, rfl⟩
  have emptyReads : ∃ w₁, host.Takes ⟨1, 0⟩ [(0, .ended 1)] (world.note (.sampleBegan 7 none)) w₁ ∧
      w₁.memory = 1 ∧
      w₁.scene.animations[1]? = some { strategy := .rate (.external ()) ⟨0, 0⟩ 0 } :=
    ⟨_, ⟨_, ⟨4, rfl⟩, rfl⟩, rfl, rfl⟩
  have ended : ∀ taken ∈ [((0 : AnimationId), Sample.ended (1 : Int))], taken.2.isEnded = true := by
    simp [Sample.isEnded]
  refine ⟨?_, ?_, ?_⟩
  · obtain ⟨w₁, htakes, hmemory, hrate⟩ := nestedReads
    have hnested : host.Answers (.sample 3 ⟨1, 0⟩) world (.value 3) _ :=
      (taken 3 [0, 2, 0] (.value 3) _ (by simp) rfl).mpr
        ⟨[(0, .ended 1)], 2, [0], w₁, rfl, ended, by simp [Sample.isEnded], htakes, rfl⟩
    obtain ⟨w₂, hflat, halike⟩ := (nested [0] 2 [0, 1] [0] 3 4 (by simp) rfl rfl rfl).1 _ _
      (yields_ask.mpr hnested)
    refine ⟨_, w₂, hnested, yields_ask.mp hflat, halike, ?_, ?_⟩
    · rw [halike.memory]
      exact hmemory
    · rw [halike.scene]
      exact hrate
  · obtain ⟨w₂, hrate, hmemory⟩ := rateReads
    obtain ⟨w₁, hsingle, halike⟩ := (single 5 1 rfl).2 _ w₂ (yields_ask.mpr hrate)
    exact ⟨w₁, yields_ask.mp hsingle, halike.memory.symm.trans hmemory⟩
  · obtain ⟨w₁, htakes, hmemory, hrate⟩ := emptyReads
    exact ⟨_, empty [0] 6 [1] 7 _ w₁ (by decide) rfl rfl rfl ended htakes, hmemory, hrate⟩

end Nest

end Inbetween
