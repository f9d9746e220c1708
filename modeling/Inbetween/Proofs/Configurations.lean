import Inbetween.Proofs.Contracts
import Inbetween.Proofs.Journal
import Inbetween.Proofs.Setters
import Inbetween.Proofs.Whole

/-!
# Configurations

An interpolation lends its configuration out to each of its samples, which may be nested, and to the
host. The journal tells how often it is lent out, and it tells the configuration: the first one,
changed by every change that was made. A change is refused exactly while the configuration is lent
out, so a sample finds the configuration that was there when it began. What a change that is made
does to the fields is said in `Proofs.Setters`.
-/

namespace Inbetween

variable {α : Type} {V : Vocabulary} {M : Type}

/-! ## Configurations in the journal -/

namespace Event

def beginsSample (a : AnimationId) : Event α V → Bool
  | .sampleBegan b _ => b == a
  | _ => false

def finishesSample (a : AnimationId) : Event α V → Bool
  | .sampleFinished b _ _ => b == a
  | _ => false

end Event

/-- The samples of an animation that are under way, innermost first. -/
def samplesUnderWay (a : AnimationId) (j : List (Event α V)) : List (List (Event α V)) :=
  underWay (Event.beginsSample a) (Event.finishesSample a) j

/-- One more event, for the number of times that the host holds a configuration. -/
def heldAfter (a : AnimationId) (n : Nat) : Event α V → Nat
  | .held b => if b = a then n + 1 else n
  | .released b => if b = a then n - 1 else n
  | _ => n

/-- How many times the host holds the configuration of an interpolation. -/
def timesHeld (a : AnimationId) (j : List (Event α V)) : Nat := j.foldl (heldAfter a) 0

/-- One more event, for the configuration of an interpolation. New animations come with theirs. -/
def configuredAfter (a : AnimationId) (i : Option (Interpolation α V)) :
    Event α V → Option (Interpolation α V)
  | .added first strategies =>
    if first ≤ a then
      match strategies[a - first]? with
      | some s => s.interpolation?
      | none => i
    else i
  | .reconfigured b change => if b = a then i.map (·.change change) else i
  | _ => i

/-- The configuration of an interpolation after the changes of a journal, one after the other. -/
def configurationAfter (a : AnimationId) (i : Option (Interpolation α V)) (j : List (Event α V)) :
    Option (Interpolation α V) :=
  j.foldl (configuredAfter a) i

/-- The configuration is lent out: a sample is under way, or the host holds it. -/
def LentOut (a : AnimationId) (j : List (Event α V)) : Prop :=
  samplesUnderWay a j ≠ [] ∨ timesHeld a j ≠ 0

instance (a : AnimationId) (j : List (Event α V)) : Decidable (LentOut a j) :=
  inferInstanceAs (Decidable (_ ∨ _))

/-- The event has nothing to do with the animation. -/
structure Event.SparesAnimation (a : AnimationId) (e : Event α V) : Prop where
  begins : e.beginsSample a = false := by rfl
  finishes : e.finishesSample a = false := by rfl
  held : ∀ n, heldAfter a n e = n := by exact fun _ => rfl
  configured : ∀ i, configuredAfter a i e = i := by exact fun _ => rfl

section Append

variable {a : AnimationId} {es : List (Event α V)}

theorem samplesUnderWay_append (h : ∀ e ∈ es, e.SparesAnimation a) (j : List (Event α V)) :
    samplesUnderWay a (j ++ es) = (samplesUnderWay a j).map (· ++ es) :=
  underWay_append j es fun e he => ⟨(h e he).begins, (h e he).finishes⟩

theorem timesHeld_snoc (j : List (Event α V)) (e : Event α V) :
    timesHeld a (j ++ [e]) = heldAfter a (timesHeld a j) e := by
  simp [timesHeld]

theorem configurationAfter_append (i : Option (Interpolation α V)) (j es : List (Event α V)) :
    configurationAfter a i (j ++ es) = configurationAfter a (configurationAfter a i j) es := by
  simp [configurationAfter]

theorem timesHeld_append (h : ∀ e ∈ es, e.SparesAnimation a) (j : List (Event α V)) :
    timesHeld a (j ++ es) = timesHeld a j := by
  induction es using List.reverseRecOn with
  | nil => simp
  | append_singleton es e ih =>
      rw [← List.append_assoc, timesHeld_snoc, (h e (by simp)).held,
        ih fun e he => h e (List.mem_append_left _ he)]

theorem configurationAfter_spared (h : ∀ e ∈ es, e.SparesAnimation a)
    (i : Option (Interpolation α V)) : configurationAfter a i es = i := by
  induction es with
  | nil => rfl
  | cons e es ih =>
      rw [configurationAfter, List.foldl_cons, (h e (by simp)).configured]
      exact ih fun e he => h e (List.mem_cons_of_mem _ he)

end Append

theorem configuredAfter_added (a : AnimationId) (i : Option (Interpolation α V))
    (first : AnimationId) (strategies : List (Strategy α V)) :
    configuredAfter a i (.added first strategies) =
      ((Event.added first strategies).adds? a).elim i Strategy.interpolation? := by
  simp only [configuredAfter, Event.adds?]
  split
  · cases strategies[a - first]? <;> rfl
  · rfl

/-- After the changes one by one, each field is what was last given to it. -/
theorem configured_of_configurationAfter {a : AnimationId} {initial : Option (Interpolation α V)}
    {j : List (Event α V)} {i : Interpolation α V} (h : configurationAfter a initial j = some i) :
    Configured a initial j i := by
  induction j using List.reverseRecOn generalizing i with
  | nil => exact .nil h
  | append_singleton j e ih =>
      rw [configurationAfter_append] at h
      change configuredAfter a (configurationAfter a initial j) e = some i at h
      -- Only additions and changes of this very animation can matter to its configuration.
      cases e with
      | added first strategies =>
          rw [configuredAfter_added] at h
          cases hadds : (Event.added (α := α) first strategies).adds? a with
          | some s =>
              rw [hadds] at h
              rw [Strategy.eq_of_interpolation? (s := s) h] at hadds
              exact .added hadds
          | none =>
              rw [hadds] at h
              exact (ih h).spared hadds rfl
      | reconfigured b change =>
          by_cases hb : b = a
          · rw [configuredAfter, if_pos hb] at h
            obtain ⟨i₀, h₀, rfl⟩ := Option.map_eq_some_iff.mp h
            exact (ih h₀).changed rfl (if_pos hb) (Change.sets_iff.mpr rfl)
          · rw [configuredAfter, if_neg hb] at h
            exact (ih h).spared rfl (if_neg hb)
      | _ => exact (ih h).spared rfl rfl

/-! ## The contract -/

/-- The animation is as the journal tells, and its configuration has stayed as it was since its
samples under way began. -/
structure World.Tells (i : Option (Interpolation α V)) (w : World α V M) (a : AnimationId) :
    Prop where
  configured : (w.scene.animation a).interpolation? = configurationAfter a i w.journal.toList
  held : (w.scene.animation a).held = timesHeld a w.journal.toList
  sampling : (w.scene.animation a).interpolation?.isSome →
    (w.scene.animation a).sampling = (samplesUnderWay a w.journal.toList).length
  unchanged : ∀ since ∈ samplesUnderWay a w.journal.toList, ∀ i, configurationAfter a i since = i
  absent : w.scene.animations.size ≤ a → samplesUnderWay a w.journal.toList = []

/-- The samples of the animation that are under way are the same in both worlds. -/
def World.SameSamples (w w' : World α V M) (a : AnimationId) : Prop :=
  ∃ es, w'.journal.toList = w.journal.toList ++ es ∧
    samplesUnderWay a w'.journal.toList = (samplesUnderWay a w.journal.toList).map (· ++ es)

namespace World.SameSamples

variable {w w' w'' : World α V M} {a : AnimationId}

theorem refl (w : World α V M) (a : AnimationId) : w.SameSamples w a := ⟨[], by simp, by simp⟩

theorem trans (h : w.SameSamples w' a) (h' : w'.SameSamples w'' a) : w.SameSamples w'' a := by
  obtain ⟨es, hj, hs⟩ := h
  obtain ⟨es', hj', hs'⟩ := h'
  refine ⟨es ++ es', by rw [hj', hj, List.append_assoc], ?_⟩
  rw [hs', hs, List.map_map]
  exact List.map_congr_left fun since _ => List.append_assoc since es es'

theorem length (h : w.SameSamples w' a) :
    (samplesUnderWay a w'.journal.toList).length =
      (samplesUnderWay a w.journal.toList).length := by
  obtain ⟨es, _, hs⟩ := h
  rw [hs, List.length_map]

end World.SameSamples

/-- All animations are as the journal tells, and while a call is answered no sample is left under
way, no animation vanishes, and none becomes an interpolation or ceases to be one. -/
def configurationContract (i : AnimationId → Option (Interpolation α V)) :
    Contract α V M where
  holds w := ∀ a, w.Tells (i a) a
  moves w w' := w.scene.animations.size ≤ w'.scene.animations.size ∧ ∀ a, w.SameSamples w' a ∧
    (a < w.scene.animations.size → (w'.scene.animation a).interpolation?.isSome =
      (w.scene.animation a).interpolation?.isSome)
  refl w := ⟨Nat.le_refl _, fun a => ⟨.refl w a, fun _ => rfl⟩⟩
  trans h h' := ⟨Nat.le_trans h.1 h'.1, fun a => ⟨(h.2 a).1.trans (h'.2 a).1, fun ha =>
    ((h'.2 a).2 (Nat.lt_of_lt_of_le ha h.1)).trans ((h.2 a).2 ha)⟩⟩

namespace World

variable {w w' : World α V M} {a : AnimationId}

/-- Nothing has happened to the animation between two worlds. -/
structure Untouched (w w' : World α V M) (a : AnimationId) : Prop where
  interpolation : (w'.scene.animation a).interpolation? = (w.scene.animation a).interpolation?
  held : (w'.scene.animation a).held = (w.scene.animation a).held
  sampling : (w'.scene.animation a).sampling = (w.scene.animation a).sampling
  size : w.scene.animations.size ≤ w'.scene.animations.size
  journal : ∃ es, w'.journal.toList = w.journal.toList ++ es ∧ ∀ e ∈ es, e.SparesAnimation a

namespace Untouched

theorem samples (h : w.Untouched w' a) : w.SameSamples w' a := by
  obtain ⟨es, hj, hes⟩ := h.journal
  exact ⟨es, hj, hj ▸ samplesUnderWay_append hes _⟩

theorem tells {i : Option (Interpolation α V)} (h : w.Untouched w' a) (hw : w.Tells i a) :
    w'.Tells i a := by
  obtain ⟨es, hj, hes⟩ := h.journal
  refine ⟨?_, ?_, fun hi => ?_, fun since hs i => ?_, fun ha => ?_⟩
  · rw [h.interpolation, hj, configurationAfter_append, configurationAfter_spared hes]
    exact hw.configured
  · rw [h.held, hj, timesHeld_append hes]
    exact hw.held
  · rw [h.samples.length, h.sampling]
    exact hw.sampling (h.interpolation ▸ hi)
  · rw [hj, samplesUnderWay_append hes] at hs
    obtain ⟨earlier, he, rfl⟩ := List.mem_map.mp hs
    rw [configurationAfter_append, hw.unchanged earlier he, configurationAfter_spared hes]
  · rw [hj, samplesUnderWay_append hes, hw.absent (Nat.le_trans h.size ha), List.map_nil]

/-- A stretch that touches no animation. -/
theorem allows {i : AnimationId → Option (Interpolation α V)} (h : ∀ a, w.Untouched w' a)
    (hw : (configurationContract i).holds w) : (configurationContract i).Allows w w' :=
  ⟨fun a => (h a).tells (hw a), (h 0).size, fun a => ⟨(h a).samples, fun _ =>
    congrArg Option.isSome (h a).interpolation⟩⟩

theorem note {e : Event α V} (he : e.SparesAnimation a) : w.Untouched (w.note e) a where
  interpolation := rfl
  held := rfl
  sampling := rfl
  size := Nat.le_refl _
  journal := ⟨[e], by simp, by simpa using he⟩

theorem modifyLink (l : LinkId) (f : Link α → Link α) : w.Untouched (w.modifyLink l f) a where
  interpolation := rfl
  held := rfl
  sampling := rfl
  size := Nat.le_refl _
  journal := ⟨[], by simp, by simp⟩

theorem trans {w'' : World α V M} (h : w.Untouched w' a) (h' : w'.Untouched w'' a) :
    w.Untouched w'' a where
  interpolation := h'.interpolation.trans h.interpolation
  held := h'.held.trans h.held
  sampling := h'.sampling.trans h.sampling
  size := Nat.le_trans h.size h'.size
  journal := by
    obtain ⟨es, hj, hes⟩ := h.journal
    obtain ⟨es', hj', hes'⟩ := h'.journal
    refine ⟨es ++ es', by rw [hj', hj, List.append_assoc], fun e he => ?_⟩
    rcases List.mem_append.mp he with he | he
    · exact hes e he
    · exact hes' e he

/-- A change of one animation touches no other one. -/
theorem modifyAnimation {b : AnimationId} (hba : b ≠ a) (f : Animation α V → Animation α V) :
    w.Untouched (w.modifyAnimation b f) a where
  interpolation := by simp [Scene.animation_modifyAnimation, hba]
  held := by simp [Scene.animation_modifyAnimation, hba]
  sampling := by simp [Scene.animation_modifyAnimation, hba]
  size := by simp [Scene.modifyAnimation]
  journal := ⟨[], by simp, by simp⟩

/-- A change of an animation that leaves its configuration and its counts alone. -/
theorem modifyOwn {f : Animation α V → Animation α V}
    (hi : (f (w.scene.animation a)).interpolation? = (w.scene.animation a).interpolation?)
    (hh : (f (w.scene.animation a)).held = (w.scene.animation a).held)
    (hs : (f (w.scene.animation a)).sampling = (w.scene.animation a).sampling) :
    w.Untouched (w.modifyAnimation a f) a := by
  have hf := Scene.animation_modifyAnimation w.scene a a f
  refine ⟨?_, ?_, ?_, by simp [Scene.modifyAnimation], [], by simp, by simp⟩
  all_goals
    rw [World.modifyAnimation_scene, hf]
    split <;> simp only [hi, hh, hs]

end Untouched

theorem Untouched.sampleBegan {b : AnimationId} (hab : a ≠ b) (through : Option LinkId) :
    w.Untouched (w.note (.sampleBegan a through)) b :=
  note { begins := by simpa [Event.beginsSample] using hab }

theorem Untouched.sampleFinished {b : AnimationId} (hab : a ≠ b) (through : Option LinkId)
    (s : Sample α) : w.Untouched (w.note (.sampleFinished a through s)) b :=
  note { finishes := by simpa [Event.finishesSample] using hab }

/-- From one world to the other a sample of the animation begins. -/
structure SampleBegins (w w' : World α V M) (a : AnimationId) : Prop where
  interpolation : (w'.scene.animation a).interpolation? = (w.scene.animation a).interpolation?
  held : (w'.scene.animation a).held = (w.scene.animation a).held
  sampling : (w.scene.animation a).interpolation?.isSome →
    (w'.scene.animation a).sampling = (w.scene.animation a).sampling + 1
  size : w'.scene.animations.size = w.scene.animations.size
  journal : ∃ through, w'.journal.toList = w.journal.toList ++ [.sampleBegan a through]
  others : ∀ b, a ≠ b → w.Untouched w' b

/-- From one world to the other the innermost sample of the animation ends. -/
structure SampleEnds (w w' : World α V M) (a : AnimationId) : Prop where
  interpolation : (w'.scene.animation a).interpolation? = (w.scene.animation a).interpolation?
  held : (w'.scene.animation a).held = (w.scene.animation a).held
  sampling : (w.scene.animation a).interpolation?.isSome →
    (w'.scene.animation a).sampling = (w.scene.animation a).sampling - 1
  size : w'.scene.animations.size = w.scene.animations.size
  journal : ∃ through s, w'.journal.toList = w.journal.toList ++ [.sampleFinished a through s]
  others : ∀ b, a ≠ b → w.Untouched w' b

theorem sampleBegins (w : World α V M) (hn : (w.scene.animation a).interpolation? = none)
    (through : Option LinkId) : w.SampleBegins (w.note (.sampleBegan a through)) a :=
  ⟨rfl, rfl, by simp [hn], rfl, ⟨through, by simp⟩, fun _ hb => .sampleBegan hb through⟩

theorem sampleEnds (w : World α V M) (hn : (w.scene.animation a).interpolation? = none)
    (through : Option LinkId) (s : Sample α) :
    w.SampleEnds (w.note (.sampleFinished a through s)) a :=
  ⟨rfl, rfl, by simp [hn], rfl, ⟨through, s, by simp⟩, fun _ hb => .sampleFinished hb through s⟩

/-- A sample of an interpolation borrows the configuration when it begins. -/
theorem sampleBegins_borrowing (w : World α V M) (ha : a < w.scene.animations.size)
    (through : Option LinkId) :
    w.SampleBegins (w.lend a through) a := by
  unfold lend
  refine ⟨?_, ?_, fun _ => ?_, ?_, ⟨through, by simp⟩, fun b hb => ?_⟩
  · simp [Scene.animation_modifyAnimation, ha, Animation.interpolation?]
  · simp [Scene.animation_modifyAnimation, ha]
  · simp [Scene.animation_modifyAnimation, ha]
  · simp [Scene.modifyAnimation]
  · exact (Untouched.sampleBegan hb through).trans (.modifyAnimation hb _)

/-- And it gives it back before it ends. -/
theorem sampleEnds_borrowing (w : World α V M) (ha : a < w.scene.animations.size)
    (through : Option LinkId) (s : Sample α) :
    w.SampleEnds (w.giveBack a through s) a := by
  unfold giveBack
  refine ⟨?_, ?_, fun _ => ?_, ?_, ⟨through, s, by simp⟩, fun b hb => ?_⟩
  · simp [Scene.animation_modifyAnimation, ha, Animation.interpolation?]
  · simp [Scene.animation_modifyAnimation, ha]
  · simp [Scene.animation_modifyAnimation, ha]
  · simp [Scene.modifyAnimation]
  · exact Untouched.trans (.modifyAnimation hb _) (.sampleFinished hb through s)

theorem SampleBegins.opens (h : w.SampleBegins w' a) : ∃ through,
    w'.journal.toList = w.journal.toList ++ [.sampleBegan a through] ∧
    samplesUnderWay a w'.journal.toList =
      [] :: (samplesUnderWay a w.journal.toList).map (· ++ [.sampleBegan a through]) := by
  obtain ⟨through, hj⟩ := h.journal
  rw [hj]
  exact ⟨through, rfl, underWay_begin (by simp [Event.beginsSample]) rfl _⟩

theorem SampleBegins.length (h : w.SampleBegins w' a) :
    (samplesUnderWay a w'.journal.toList).length =
      (samplesUnderWay a w.journal.toList).length + 1 := by
  obtain ⟨through, -, hopen⟩ := h.opens
  rw [hopen, List.length_cons, List.length_map]

theorem SampleEnds.closes (h : w.SampleEnds w' a) : ∃ through s,
    w'.journal.toList = w.journal.toList ++ [.sampleFinished a through s] ∧
    samplesUnderWay a w'.journal.toList =
      (samplesUnderWay a w.journal.toList).tail.map (· ++ [.sampleFinished a through s]) := by
  obtain ⟨through, s, hj⟩ := h.journal
  rw [hj]
  exact ⟨through, s, rfl, underWay_finish rfl (by simp [Event.finishesSample]) _⟩

theorem SampleEnds.length (h : w.SampleEnds w' a) :
    (samplesUnderWay a w'.journal.toList).length =
      (samplesUnderWay a w.journal.toList).length - 1 := by
  obtain ⟨through, s, -, hclose⟩ := h.closes
  rw [hclose, List.length_map, List.length_tail]

/-- A sample that has begun and ended has left the samples under way as they were. -/
theorem SampleBegins.samples {w₁ w₂ : World α V M} (hb : w.SampleBegins w₁ a)
    (h : w₁.SameSamples w₂ a) (he : w₂.SampleEnds w' a) : w.SameSamples w' a := by
  obtain ⟨through, hj₁, hs₁⟩ := hb.opens
  obtain ⟨es, hj₂, hs₂⟩ := h
  obtain ⟨through', s, hj', hs'⟩ := he.closes
  refine ⟨.sampleBegan a through :: es ++ [.sampleFinished a through' s], ?_, ?_⟩
  · simp [hj', hj₂, hj₁]
  · simp [hs', hs₂, hs₁, Function.comp_def]

theorem SampleBegins.tells {i : Option (Interpolation α V)} (h : w.SampleBegins w' a)
    (ha : a < w.scene.animations.size) (hw : w.Tells i a) : w'.Tells i a := by
  obtain ⟨through, hj, hopen⟩ := h.opens
  refine ⟨?_, ?_, fun hi => ?_, fun since hs j => ?_, fun habs => ?_⟩
  · rw [h.interpolation, hw.configured, hj, configurationAfter_append]
    rfl
  · rw [h.held, hw.held, hj, timesHeld_snoc]
    rfl
  · rw [h.interpolation] at hi
    rw [h.sampling hi, hw.sampling hi, h.length]
  · rw [hopen, List.mem_cons] at hs
    rcases hs with rfl | hs
    · rfl
    · obtain ⟨earlier, he, rfl⟩ := List.mem_map.mp hs
      rw [configurationAfter_append, hw.unchanged earlier he]
      rfl
  · rw [h.size] at habs
    exact absurd ha (Nat.not_lt.mpr habs)

theorem SampleEnds.tells {i : Option (Interpolation α V)} (h : w.SampleEnds w' a)
    (hw : w.Tells i a) : w'.Tells i a := by
  obtain ⟨through, s, hj, hclose⟩ := h.closes
  refine ⟨?_, ?_, fun hi => ?_, fun since hs j => ?_, fun habs => ?_⟩
  · rw [h.interpolation, hw.configured, hj, configurationAfter_append]
    rfl
  · rw [h.held, hw.held, hj, timesHeld_snoc]
    rfl
  · rw [h.interpolation] at hi
    rw [h.sampling hi, hw.sampling hi, h.length]
  · rw [hclose] at hs
    obtain ⟨earlier, he, rfl⟩ := List.mem_map.mp hs
    rw [configurationAfter_append, hw.unchanged earlier (List.mem_of_mem_tail he)]
    rfl
  · rw [hclose, hw.absent (h.size ▸ habs)]
    rfl

end World

namespace ConfigurationContract

variable {i : AnimationId → Option (Interpolation α V)} {w w' : World α V M} {a : AnimationId}

theorem stays (hw : (configurationContract i).holds w) : (configurationContract i).Allows w w :=
  ⟨hw, (configurationContract i).refl w⟩

theorem note {e : Event α V} (he : ∀ a, e.SparesAnimation a)
    (hw : (configurationContract i).holds w) :
    (configurationContract i).Allows w (w.note e) :=
  World.Untouched.allows (fun a => .note (he a)) hw

theorem linkChanged (l : LinkId) (f : Link α → Link α) {e : Event α V}
    (he : ∀ a, e.SparesAnimation a) (hw : (configurationContract i).holds w) :
    (configurationContract i).Allows w ((w.note e).modifyLink l f) :=
  World.Untouched.allows (fun a => (World.Untouched.note (he a)).trans (.modifyLink l f)) hw

/-- What happens to one animation, the others being left alone. -/
theorem one (hw : (configurationContract i).holds w) (ha : w'.Tells (i a) a)
    (hother : ∀ b, a ≠ b → w.Untouched w' b) : (configurationContract i).holds w' := by
  intro b
  by_cases hb : a = b
  · exact hb ▸ ha
  · exact (hother b hb).tells (hw b)

theorem allows_one (hw : (configurationContract i).holds w) (ha : w'.Tells (i a) a)
    (hsame : w.SameSamples w' a)
    (hi : (w'.scene.animation a).interpolation?.isSome =
      (w.scene.animation a).interpolation?.isSome)
    (hsize : w.scene.animations.size ≤ w'.scene.animations.size)
    (hother : ∀ b, a ≠ b → w.Untouched w' b) : (configurationContract i).Allows w w' := by
  refine ⟨one hw ha hother, hsize, fun b => ?_⟩
  by_cases hb : a = b
  · exact hb ▸ ⟨hsame, fun _ => hi⟩
  · exact ⟨(hother b hb).samples, fun _ => congrArg Option.isSome (hother b hb).interpolation⟩

/-- A sample that begins, does what is allowed, and ends. -/
theorem sampled {w₁ w₂ : World α V M} (ha : a < w.scene.animations.size)
    (hb : w.SampleBegins w₁ a) (h : (configurationContract i).Allows w₁ w₂)
    (he : w₂.SampleEnds w' a) : (configurationContract i).Allows w w' := by
  obtain ⟨hw₂, hsize, hm⟩ := h
  rw [hb.size] at hsize
  have hholds : (configurationContract i).holds w' := one hw₂ (he.tells (hw₂ a)) he.others
  refine ⟨hholds, he.size ▸ hsize, ?_⟩
  intro b
  by_cases hab : a = b
  · subst hab
    have hsame : w.SameSamples w' a := hb.samples (hm a).1 he
    refine ⟨hsame, ?_⟩
    intro _
    have hkept := (hm a).2 (hb.size ▸ ha)
    rw [he.interpolation, hkept, hb.interpolation]
  · have hbefore : w.SameSamples w₁ b := (hb.others b hab).samples
    have hafter : w₂.SameSamples w' b := (he.others b hab).samples
    refine ⟨(hbefore.trans (hm b).1).trans hafter, ?_⟩
    intro hbs
    have hkept := (hm b).2 (hb.size ▸ hbs)
    rw [(he.others b hab).interpolation, hkept, (hb.others b hab).interpolation]

/-- The sample of a name that nothing has is over at once. -/
theorem allows_missing (ha : w.scene.animations.size ≤ a) (through : Option LinkId) (s : Sample α)
    (hw : (configurationContract i).holds w) :
    (configurationContract i).Allows w
      ((w.note (.sampleBegan a through)).note (.sampleFinished a through s)) := by
  have hn : (w.scene.animation a).interpolation? = none := by
    rw [Scene.animation_of_size_le ha]
    rfl
  have hb := w.sampleBegins hn through
  have he := (w.note (.sampleBegan a through)).sampleEnds hn through s
  have hnone : samplesUnderWay a ((w.note (.sampleBegan a through)).note
      (.sampleFinished a through s)).journal.toList = [] := by
    obtain ⟨_, _, hopen⟩ := hb.opens
    obtain ⟨_, _, _, hclose⟩ := he.closes
    rw [hclose, hopen, (hw a).absent ha]
    rfl
  have hother : ∀ b, a ≠ b → w.Untouched ((w.note (.sampleBegan a through)).note
      (.sampleFinished a through s)) b := by
    intro b hab
    exact (hb.others b hab).trans (he.others b hab)
  refine allows_one hw ⟨?_, ?_, ?_, by rw [hnone]; simp, fun _ => hnone⟩
    (hb.samples (.refl _ a) he) rfl (Nat.le_refl _) hother
  · simp only [World.note_scene, World.note_journal, configurationAfter_append]
    exact (hw a).configured
  · simp only [World.note_scene, World.note_journal, timesHeld_snoc]
    exact (hw a).held
  · simp [hn]

/-- Only animations that are there can be interpolations. -/
theorem lt_size_of_interpolation (hi : (w.scene.animation a).interpolation?.isSome) :
    a < w.scene.animations.size := by
  refine Nat.lt_of_not_le fun ha => ?_
  rw [Scene.animation_of_size_le ha] at hi
  cases hi

/-- A change of an animation that is taken down. While a sample of it is under way, the
configuration is left alone. -/
theorem changed {f : Animation α V → Animation α V} {e : Event α V}
    (ha : a < w.scene.animations.size)
    (hi : (f (w.scene.animation a)).interpolation? =
      configuredAfter a (w.scene.animation a).interpolation? e)
    (hh : (f (w.scene.animation a)).held = heldAfter a (w.scene.animation a).held e)
    (hs : (f (w.scene.animation a)).sampling = (w.scene.animation a).sampling)
    (hkept : (f (w.scene.animation a)).interpolation?.isSome =
      (w.scene.animation a).interpolation?.isSome)
    (hquiet : samplesUnderWay a w.journal.toList = [] ∨ ∀ c, configuredAfter a c e = c)
    (he : e.beginsSample a = false ∧ e.finishesSample a = false)
    (hother : ∀ b, a ≠ b → e.SparesAnimation b) (hw : (configurationContract i).holds w) :
    (configurationContract i).Allows w ((w.modifyAnimation a f).note e) := by
  have hf : ((w.modifyAnimation a f).note e).scene.animation a = f (w.scene.animation a) := by
    simp [Scene.animation_modifyAnimation, ha]
  have hsamples : samplesUnderWay a ((w.modifyAnimation a f).note e).journal.toList =
      (samplesUnderWay a w.journal.toList).map (· ++ [e]) := by
    rw [World.note_journal]
    exact underWay_append _ _ (by simpa using he)
  have hsame : w.SameSamples ((w.modifyAnimation a f).note e) a :=
    ⟨[e], World.note_journal _ _, hsamples⟩
  have hsize : ((w.modifyAnimation a f).note e).scene.animations.size =
      w.scene.animations.size := by
    simp [Scene.modifyAnimation]
  refine allows_one hw ⟨?_, ?_, fun hsome => ?_, fun since hmem c => ?_, fun habs => ?_⟩ hsame
    (hf ▸ hkept) (Nat.le_of_eq hsize.symm) fun b hb =>
      World.Untouched.trans (.modifyAnimation hb f) (.note (hother b hb))
  · rw [hf, hi, (hw a).configured, World.note_journal, configurationAfter_append]
    rfl
  · rw [hf, hh, (hw a).held, World.note_journal, timesHeld_snoc]
    rfl
  · rw [hf, hkept] at hsome
    rw [hf, hs, (hw a).sampling hsome, hsame.length]
  · rw [hsamples] at hmem
    obtain ⟨earlier, hearlier, rfl⟩ := List.mem_map.mp hmem
    -- Either no sample is under way, or the event is no change of a configuration.
    rcases hquiet with hquiet | hquiet
    · simp [hquiet] at hearlier
    · rw [configurationAfter_append, (hw a).unchanged earlier hearlier]
      exact hquiet c
  · exact absurd (hsize ▸ habs) (Nat.not_le.mpr ha)

/-- Animations that were there are left alone when the scene grows. -/
theorem untouched_grown {ss : List (Strategy α V)} {sc : Scene α V} (hsc : w.scene.Grows ss sc)
    (ha : a < w.scene.animations.size) :
    w.Untouched ({ w with scene := sc }.note (.added w.scene.animations.size ss)) a where
  interpolation := congrArg Animation.interpolation? (hsc.animation_of_lt ha)
  held := congrArg Animation.held (hsc.animation_of_lt ha)
  sampling := congrArg Animation.sampling (hsc.animation_of_lt ha)
  size := hsc.size ▸ Nat.le_add_right _ _
  journal := ⟨[.added w.scene.animations.size ss], World.note_journal _ _, by
    simpa using { configured := fun i => by simp [configuredAfter, Nat.not_le.mpr ha] }⟩

/-- No sample of a name is under way when an animation comes to it. -/
theorem samplesUnderWay_grown {ss : List (Strategy α V)} {sc : Scene α V}
    (ha : w.scene.animations.size ≤ a) (hw : w.Tells (i a) a) :
    samplesUnderWay a ({ w with scene := sc }.note
      (.added w.scene.animations.size ss)).journal.toList = [] := by
  rw [World.note_journal, samplesUnderWay, underWay_append _ _ (by simp [Event.beginsSample,
    Event.finishesSample])]
  exact congrArg (List.map _) (hw.absent ha)

/-- New animations come with their configurations. -/
theorem tells_grown {ss : List (Strategy α V)} {sc : Scene α V} (hsc : w.scene.Grows ss sc)
    (ha : w.scene.animations.size ≤ a) (hw : w.Tells (i a) a) :
    ({ w with scene := sc }.note (.added w.scene.animations.size ss)).Tells (i a) a := by
  have hnew : samplesUnderWay a ({ w with scene := sc }.note
      (.added w.scene.animations.size ss)).journal.toList = [] := samplesUnderWay_grown ha hw
  have hanim := hsc.animation_of_le ha
  refine ⟨?_, ?_, fun _ => ?_, by rw [hnew]; simp, fun _ => hnew⟩
  · have hconf := hw.configured
    rw [Scene.animation_of_size_le ha] at hconf
    rw [World.note_journal, configurationAfter_append, World.note_scene, hanim, ← hconf]
    cases hs : ss[a - w.scene.animations.size]? <;>
      simp [configurationAfter, configuredAfter, ha, hs, Animation.interpolation?,
        Strategy.interpolation?]
  · have hheld := hw.held
    rw [Scene.animation_of_size_le ha] at hheld
    rw [World.note_scene, hanim, World.note_journal, timesHeld_snoc, ← hheld]
    rfl
  · rw [hnew, World.note_scene, hanim]
    rfl

theorem welcomes : (configurationContract (M := M) i).Welcomes where
  noted _ _ := note fun _ => {}
  added w ss sc hsc hw := by
    refine ⟨fun a => ?_, hsc.size ▸ Nat.le_add_right _ _, fun a => ?_⟩
    · by_cases ha : a < w.scene.animations.size
      · exact (untouched_grown hsc ha).tells (hw a)
      · exact tells_grown hsc (Nat.not_lt.mp ha) (hw a)
    · by_cases ha : a < w.scene.animations.size
      · have h := untouched_grown hsc ha
        exact ⟨h.samples, fun _ => congrArg Option.isSome h.interpolation⟩
      · refine ⟨⟨_, World.note_journal _ _, ?_⟩, fun h => absurd h ha⟩
        rw [samplesUnderWay_grown (Nat.not_lt.mp ha) (hw a), (hw a).absent (Nat.not_lt.mp ha)]
        rfl
  linked w sc hsc hw := by
    have hsame : sc.animations = w.scene.animations := by simpa using hsc.animations
    refine World.Untouched.allows (fun a => ⟨?_, ?_, ?_, Nat.le_of_eq (by rw [hsame]), [], by simp,
      by simp⟩) hw
    all_goals simp only [Scene.animation, hsame]
  remembered _ _ hw := World.Untouched.allows (fun _ => ⟨rfl, rfl, rfl, Nat.le_refl _, [], by simp,
    by simp⟩) hw

/-! ### The rules -/

open Act Evaluate

variable [Scalar α] {host : Host α V M}

/-- A strategy that is no interpolation lends nothing out. -/
theorem keeps_strategy (ha : a < w.scene.animations.size)
    (hn : (w.scene.animation a).interpolation? = none) (clock : Clock α) (s : Strategy α V)
    (hs : s.interpolation? = none) (hw : (configurationContract i).holds w) :
    (strategy host a clock s).Keeps (configurationContract i)
      (fun _ w' => (configurationContract i).Allows w w') w := by
  refine Contract.keeps_unlent a clock s hs (fun {w₁} h₁ source last current => ?_) hw
  refine World.Untouched.allows (fun b => ?_) h₁.1
  by_cases hb : a = b
  · subst hb
    have hn₁ : (w₁.scene.animation a).interpolation? = none := by
      simpa [hn] using (h₁.2.2 a).2 ha
    exact .modifyOwn (by rw [hn₁]; rfl) rfl rfl
  · exact .modifyAnimation hb _

theorem keeps_sample (through : Option LinkId) (a : AnimationId) (clock : Clock α)
    (hw : (configurationContract i).holds w) :
    (sample host through a clock).Keeps (configurationContract i)
      (fun _ w' => (configurationContract i).Allows w w') w := by
  simp only [sample, bind_eq_bind, keeps_bind, keeps_note, keeps_animation, World.note_scene]
  by_cases ha : a < w.scene.animations.size
  · cases hi : (w.scene.animation a).strategy.interpolation? with
    | some c =>
        have hb := w.sampleBegins_borrowing ha through
        have hw₁ : (configurationContract i).holds (w.lend a through) :=
          one hw (hb.tells ha (hw a)) hb.others
        rw [Strategy.eq_of_interpolation? hi, strategy, keeps_borrowing]
        refine ((onlyCalls_interpolation clock c).keeps hw₁).mono ?_
        intro s w₂ h₂
        have ha₂ : a < w₂.scene.animations.size := Nat.lt_of_lt_of_le (hb.size ▸ ha) h₂.2.1
        exact sampled ha hb h₂ (w₂.sampleEnds_borrowing ha₂ through s)
    | none =>
        have hb := w.sampleBegins hi through
        have hw₁ : (configurationContract i).holds (w.note (.sampleBegan a through)) :=
          one hw (hb.tells ha (hw a)) hb.others
        refine (keeps_strategy (w := w.note (.sampleBegan a through)) ha hi clock _ hi hw₁).mono ?_
        intro s w₂ h₂
        -- It cannot have become an interpolation in the meantime.
        have hi₂ : (w₂.scene.animation a).interpolation? = none := by
          have hkept := (h₂.2.2 a).2 ha
          rw [hb.interpolation, show (w.scene.animation a).interpolation? = none from hi] at hkept
          simpa using hkept
        exact sampled ha hb h₂ (w₂.sampleEnds hi₂ through s)
  · rw [Scene.animation_of_size_le (Nat.not_lt.mp ha)]
    exact allows_missing (Nat.not_lt.mp ha) through (.value 0.0) hw

theorem keeps_evaluateIn (a : AnimationId) (l : LinkId) (clock : Clock α)
    (hw : (configurationContract i).holds w) :
    (evaluateIn host a l clock).Keeps (configurationContract i)
      (fun _ w' => (configurationContract i).Allows w w') w := by
  exact Contract.keeps_evaluateIn (keeps_sample (some l) a clock hw)
    fun hw _ _ => note (fun _ => {}) hw

theorem keeps_readLink (l : LinkId) (clock : Clock α) (hw : (configurationContract i).holds w) :
    (readLink host l clock).Keeps (configurationContract i)
      (fun _ w' => (configurationContract i).Allows w w') w := by
  refine Contract.keeps_readLink (fun hw a => keeps_evaluateIn a l clock hw) ?_ ?_ ?_ hw
  · exact fun hw => linkChanged l _ (fun _ => {}) hw
  · exact fun hw => linkChanged l _ (fun _ => {}) hw
  · exact fun hw v => World.Untouched.allows
      (fun _ => (World.Untouched.modifyLink l _).trans (.note {})) hw

end ConfigurationContract

open ConfigurationContract in
theorem configurationContract_sound [Scalar α] (host : Host α V M)
    (i : AnimationId → Option (Interpolation α V)) :
    (configurationContract (M := M) i).Sound host := by
  apply (welcomes (M := M) (i := i)).sound
  case hsource => exact fun hw s => note (fun _ => {}) hw
  case hsample => exact fun hw a clock => keeps_sample none a clock hw
  case hevaluate => exact fun hw a l clock => keeps_evaluateIn a l clock hw
  case hlink => exact fun hw l clock => keeps_readLink l clock hw
  case hhold =>
    intro w hw a hi
    refine changed (lt_size_of_interpolation hi) rfl (by simp [heldAfter]) rfl rfl
      (.inr fun _ => rfl) ⟨rfl, rfl⟩ (fun b hb => ?_) hw
    exact { held := fun n => by simp [heldAfter, hb] }
  case hrelease =>
    intro w hw a hi
    refine changed (lt_size_of_interpolation hi) rfl (by simp [heldAfter]) rfl rfl
      (.inr fun _ => rfl) ⟨rfl, rfl⟩ (fun b hb => ?_) hw
    exact { held := fun n => by simp [heldAfter, hb] }
  case hreconfigure =>
    intro w hw a change c hc hfree
    refine changed (lt_size_of_interpolation (hc ▸ rfl)) ?_ rfl rfl ?_ (.inl ?_) ⟨rfl, rfl⟩
      (fun b hb => ?_) hw
    · simp only [configuredAfter, hc, if_true]
      rfl
    · rw [hc]
      rfl
    · have hlen := (hw a).sampling (hc ▸ rfl)
      have hidle : (w.scene.animation a).sampling = 0 := by
        simp [Animation.isBorrowed] at hfree
        exact hfree.1
      exact List.eq_nil_of_length_eq_zero (hlen.symm.trans hidle)
    · exact { configured := fun i => by simp [configuredAfter, hb] }
  case hsetHook =>
    intro w hw a hook _
    refine World.Untouched.allows (fun b => World.Untouched.trans ?_ (.note {})) hw
    by_cases hb : a = b
    · exact hb ▸ .modifyOwn rfl rfl rfl
    · exact .modifyAnimation hb _
  case hsetPin =>
    exact fun hw l pin =>
      World.Untouched.allows (fun _ => (World.Untouched.modifyLink l _).trans (.note {})) hw

/-! ## Every moment of every run -/

namespace ConfigurationContract

open Act Evaluate

variable {i : AnimationId → Option (Interpolation α V)} {w w₁ : World α V M} {a : AnimationId}
  {c : Interpolation α V}

theorem isBorrowed_iff (hw : (configurationContract i).holds w)
    (hc : (w.scene.animation a).interpolation? = some c) :
    (w.scene.animation a).isBorrowed = true ↔ LentOut a w.journal.toList := by
  rw [Animation.isBorrowed, (hw a).sampling (hc ▸ rfl), (hw a).held, LentOut]
  simp [List.length_eq_zero_iff]

/-- The configuration has been what it is since the samples under way began. -/
theorem unchanged_since (hw : (configurationContract i).holds w)
    {since : List (Event α V)} (hs : since ∈ samplesUnderWay a w.journal.toList) :
    ∃ before through, w.journal.toList = before ++ .sampleBegan a through :: since ∧
      configurationAfter a (i a) before = (w.scene.animation a).interpolation? := by
  obtain ⟨before, e, hj, he⟩ := exists_begin_of_mem_underWay hs
  cases e with
  | sampleBegan b through =>
      obtain rfl : b = a := by simpa [Event.beginsSample] using he
      refine ⟨before, through, hj, ?_⟩
      have hconf := (hw b).configured
      rw [hj, configurationAfter_append, configurationAfter, List.foldl_cons] at hconf
      exact ((hw b).unchanged since hs _).symm.trans hconf.symm
  | _ => simp [Event.beginsSample] at he

/-- The configuration by which a sample is computed is still there when the sample ends. -/
theorem kept_while_lent (hw : (configurationContract i).holds w)
    (hc : (w.scene.animation a).interpolation? = some c) {through : Option LinkId}
    (h : (configurationContract i).Allows (w.lend a through) w₁) :
    (w₁.scene.animation a).interpolation? = some c := by
  have ha : a < w.scene.animations.size := lt_size_of_interpolation (by simp [hc])
  have hb := w.sampleBegins_borrowing ha through
  obtain ⟨_, hj, hopen⟩ := hb.opens
  -- The events since then are those since the sample began, and it is still under way.
  obtain ⟨es, hj₁, hs₁⟩ := (h.2.2 a).1
  have hkept := (h.1 a).unchanged es (by simp [hs₁, hopen])
  rw [(h.1 a).configured, hj₁, configurationAfter_append, hkept, hj, configurationAfter_append,
    ← (hw a).configured, hc]
  rfl

/-- At the beginning of a sample the world is still as it was at the call. -/
theorem holds_of_samples {call : Call α V M} {through : Option LinkId} {clock : Clock α}
    (hw : (configurationContract i).holds w) (h : call.Samples w a through clock w₁) :
    (configurationContract i).Allows w w₁ ∧
      (w₁.scene.animation a).interpolation? = (w.scene.animation a).interpolation? := by
  cases h with
  | direct => exact ⟨stays hw, rfl⟩
  | evaluated => exact ⟨stays hw, rfl⟩
  | read found unpinned idle => exact ⟨linkChanged _ _ (fun _ => {}) hw, rfl⟩

variable [Scalar α] {host : Host α V M}

/-- A change is refused while the configuration is lent out, and is made otherwise. -/
theorem answers_change (hw : (configurationContract i).holds w)
    (hc : (w.scene.animation a).interpolation? = some c) {change : Change α V}
    {res : Reconfigured} {w' : World α V M} :
    host.Answers (.reconfigure a change) w res w' ↔
      if LentOut a w.journal.toList then res = .busy ∧ w' = w
      else res = .done ∧ w' = (w.modifyAnimation a fun anim =>
        { anim with strategy := .interpolate (c.change change) }).note
          (.reconfigured a change) := by
  rw [Host.answers_iff]
  simp only [answer, reconfigure, bind_eq_bind, animation_bind, yields_look,
    Strategy.eq_of_interpolation? hc]
  by_cases hlent : LentOut a w.journal.toList
  · simp [(isBorrowed_iff hw hc).mpr hlent, hlent]
  · have hfree := mt (isBorrowed_iff hw hc).mp hlent
    simp [hfree, hlent]

/-- The change that is made gives its field the new value and keeps the other ones, and this is the
configuration from then on. -/
theorem answers_reconfigure (hw : (configurationContract i).holds w)
    (hc : (w.scene.animation a).interpolation? = some c) {change : Change α V}
    {res : Reconfigured} {w' : World α V M} :
    host.Answers (.reconfigure a change) w res w' ↔
      if LentOut a w.journal.toList then res = .busy ∧ w' = w
      else res = .done ∧ ∃ c', change.Sets c c' ∧
        (w'.scene.animation a).interpolation? = some c' ∧
        w' = (w.modifyAnimation a fun anim =>
          { anim with strategy := .interpolate c' }).note (.reconfigured a change) := by
  have ha : a < w.scene.animations.size := lt_size_of_interpolation (by simp [hc])
  have hnew : (((w.modifyAnimation a fun anim =>
      { anim with strategy := .interpolate (c.change change) }).note
        (.reconfigured a change)).scene.animation a).interpolation? = some (c.change change) := by
    simp [Scene.animation_modifyAnimation, ha, Animation.interpolation?, Strategy.interpolation?]
  rw [answers_change hw hc]
  by_cases hlent : LentOut a w.journal.toList
  · simp only [if_pos hlent]
  · simp only [if_neg hlent, Change.sets_iff, exists_eq_left]
    constructor
    · rintro ⟨hres, rfl⟩
      exact ⟨hres, hnew, rfl⟩
    · rintro ⟨hres, -, hw'⟩
      exact ⟨hres, hw'⟩

theorem yields_sample (hw : (configurationContract i).holds w)
    (hc : (w.scene.animation a).interpolation? = some c) {through : Option LinkId}
    {clock : Clock α} {s : Sample α} {w' : World α V M} :
    (sample host through a clock).Yields host w s w' ↔
      ∃ w₁, (interpolation clock c).Yields host (w.lend a through) s w₁ ∧
        (w₁.scene.animation a).interpolation? = some c ∧ w' = w₁.giveBack a through s := by
  have ha : a < w.scene.animations.size := lt_size_of_interpolation (by simp [hc])
  have hb := w.sampleBegins_borrowing ha through
  have hw₁ : (configurationContract i).holds (w.lend a through) :=
    one hw (hb.tells ha (hw a)) hb.others
  have hkeeps := (onlyCalls_interpolation clock c).keeps hw₁
  rw [yields_sample_interpolation hc]
  refine exists_congr fun w₁ => and_congr_right ?_
  intro hy
  have h₁ := (configurationContract_sound host i).yields hkeeps hy
  have hkept := kept_while_lent hw hc h₁
  exact (and_iff_right hkept).symm

end ConfigurationContract

namespace Meddling

/-! An interpolation whose time source and whose on-end hook both try to change it. The numbers are
whole, so that its end can be seen to be reached. -/

def vocabulary : Vocabulary := ⟨Unit, Unit, Empty⟩

def meddle : Change Int vocabulary := .finish (.constant 7)

def host : Host Int vocabulary Unit where
  source _ := do
    let _ ← Routine.ask (.reconfigure 0 meddle)
    return 2
  hook _ _ v := do
    let _ ← Routine.ask (.reconfigure 0 meddle)
    return v
  strategy := Empty.elim

/-- Its configuration, with a given end. -/
def ending (v : Int) : Interpolation Int vocabulary where
  start := .constant 0
  finish := .constant v
  time := .slot (.external ())

def world : World Int vocabulary Unit where
  scene :=
    { animations := #[{ strategy := .interpolate (ending 1), hook := some () }]
      links := #[{ target := 0 }] }
  memory := ()

def reader : Routine Int vocabulary Unit Int := Routine.ask (.read (.link 0) .new)

end Meddling

end Inbetween
