import Inbetween.Binary64.Scalar
import Inbetween.Proofs.Contracts
import Inbetween.Proofs.Journal

/-!
# Guards

The guard of a link is a flag that is raised and lowered at different levels of one recursion: a
read raises it and lowers it at its end, and a read that meets it on a cycle lowers it too, although
the outer read goes on. What the flag says is told here from the journal: it is up while the
innermost read of the link under way has seen no attempt to read the link come to an end. So it is
down whenever an outermost call has returned.
-/

namespace Inbetween

variable {α : Type} {V : Vocabulary} {M : Type}

/-- No link is being read. -/
def Scene.Idle (sc : Scene α V) : Prop := ∀ l, (sc.link l).busy = false

theorem Scene.busy_lowered (sc : Scene α V) (l m : LinkId) :
    ((sc.modifyLink l fun link => { link with busy := false }).link m).busy = true ↔
      l ≠ m ∧ (sc.link m).busy = true := by
  rw [Scene.link_modifyLink]
  by_cases hlm : l = m
  · subst hlm
    by_cases hl : l < sc.links.size <;> simp [Scene.link, hl]
  · simp [hlm]

theorem Scene.busy_raised (sc : Scene α V) {l : LinkId} (hl : l < sc.links.size) (m : LinkId) :
    ((sc.modifyLink l fun link => { link with busy := true }).link m).busy = true ↔
      l = m ∨ (sc.link m).busy = true := by
  rw [Scene.link_modifyLink]
  by_cases hlm : l = m
  · subst hlm
    simp [hl]
  · simp [hlm]

/-! ## Reads in the journal -/

namespace Event

def beginsRead (l : LinkId) : Event α V → Bool
  | .readBegan m => m == l
  | _ => false

def finishesRead (l : LinkId) : Event α V → Bool
  | .readFinished m _ => m == l
  | _ => false

/-- An attempt to read the link, not stopped by its pin, comes to an end: the read is finished, or
it was answered as a cycle. -/
def completesRead (l : LinkId) : Event α V → Bool
  | .readFinished m _ => m == l
  | .cycleMet m => m == l
  | _ => false

/-- Reading the link is not what the event is about. -/
def SparesLink (l : LinkId) (e : Event α V) : Prop :=
  e.beginsRead l = false ∧ e.completesRead l = false

theorem SparesLink.finishesRead {l : LinkId} {e : Event α V} (h : e.SparesLink l) :
    e.finishesRead l = false := by
  cases e <;> first | rfl | exact h.2

end Event

/-- The reads of a link that are under way, innermost first. -/
def readsUnderWay (l : LinkId) (j : List (Event α V)) : List (List (Event α V)) :=
  underWay (Event.beginsRead l) (Event.finishesRead l) j

/-- A read of the link is under way, and since the innermost one began no attempt to read the link
has come to an end. -/
def ReadUncompleted (l : LinkId) (j : List (Event α V)) : Prop :=
  ∃ since outer, readsUnderWay l j = since :: outer ∧ ∀ e ∈ since, e.completesRead l = false

theorem readsUnderWay_append {l : LinkId} {es : List (Event α V)}
    (h : ∀ e ∈ es, e.SparesLink l) (j : List (Event α V)) :
    readsUnderWay l (j ++ es) = (readsUnderWay l j).map (· ++ es) :=
  underWay_append j es fun e he => ⟨(h e he).1, (h e he).finishesRead⟩

theorem length_readsUnderWay_began (l : LinkId) (j : List (Event α V)) :
    (readsUnderWay l (j ++ [.readBegan l])).length = (readsUnderWay l j).length + 1 := by
  rw [readsUnderWay, underWay_begin (by simp [Event.beginsRead]) rfl, List.length_cons,
    List.length_map, readsUnderWay]

theorem length_readsUnderWay_finished (l : LinkId) (v : α) (j : List (Event α V)) :
    (readsUnderWay l (j ++ [.readFinished l v])).length = (readsUnderWay l j).length - 1 := by
  rw [readsUnderWay, underWay_finish rfl (by simp [Event.finishesRead]), List.length_map,
    List.length_tail, readsUnderWay]

theorem readUncompleted_append {l : LinkId} {es : List (Event α V)}
    (h : ∀ e ∈ es, e.SparesLink l) (j : List (Event α V)) :
    ReadUncompleted l (j ++ es) ↔ ReadUncompleted l j := by
  unfold ReadUncompleted
  rw [readsUnderWay_append h]
  cases readsUnderWay l j with
  | nil => simp
  | cons since outer =>
      rw [List.map_cons]
      constructor
      · rintro ⟨_, _, heq, hall⟩
        obtain ⟨rfl, -⟩ := List.cons.inj heq
        exact ⟨since, outer, rfl, fun e he => hall e (List.mem_append_left _ he)⟩
      · rintro ⟨_, _, heq, hall⟩
        obtain ⟨rfl, rfl⟩ := List.cons.inj heq
        refine ⟨_, _, rfl, fun e he => ?_⟩
        rcases List.mem_append.mp he with he | he
        · exact hall e he
        · exact (h e he).2

theorem readUncompleted_readBegan (l : LinkId) (j : List (Event α V)) :
    ReadUncompleted l (j ++ [.readBegan l]) :=
  ⟨[], _, underWay_begin (by simp [Event.beginsRead]) rfl j, by simp⟩

/-- An attempt that comes to an end is seen by every read under way. -/
theorem not_readUncompleted_of_completes {l : LinkId} {e : Event α V}
    (he : e.completesRead l = true) (j : List (Event α V)) :
    ¬ ReadUncompleted l (j ++ [e]) := by
  have hb : e.beginsRead l = false := by
    cases e <;> first | rfl | simp [Event.completesRead] at he
  rintro ⟨since, outer, hs, hall⟩
  rw [readsUnderWay, underWay_snoc, underWayStep, hb] at hs
  -- The event itself has happened since whatever read is still under way.
  have hmem : e ∈ since := by
    obtain ⟨earlier, _, h⟩ := List.exists_of_mem_map (hs ▸ List.mem_cons_self :
      since ∈ List.map (· ++ [e]) _)
    simp [← h]
  simp [hall e hmem] at he

/-! ## The contract -/

/-- The guards are as the journal tells, and while a call is answered guards are only lowered and no
read is left under way. -/
def guardContract (α : Type) (V : Vocabulary) (M : Type) : Contract α V M where
  holds w := ∀ l, (w.scene.link l).busy = true ↔ ReadUncompleted l w.journal.toList
  moves w w' := ∀ l, ((w'.scene.link l).busy = true → (w.scene.link l).busy = true) ∧
    (readsUnderWay l w'.journal.toList).length = (readsUnderWay l w.journal.toList).length
  refl _ _ := ⟨id, rfl⟩
  trans h h' l := ⟨fun hb => (h l).1 ((h' l).1 hb), (h' l).2.trans (h l).2⟩

/-- A stretch in which no read begins or comes to an end. -/
theorem guardContract_quiet {w w' : World α V M} (es : List (Event α V))
    (hj : w'.journal.toList = w.journal.toList ++ es) (hes : ∀ l, ∀ e ∈ es, e.SparesLink l)
    (hb : ∀ l, (w'.scene.link l).busy = (w.scene.link l).busy)
    (hw : (guardContract α V M).holds w) :
    (guardContract α V M).Allows w w' := by
  refine ⟨fun l => ?_, fun l => ⟨fun h => hb l ▸ h, ?_⟩⟩
  · rw [hb l, hj, readUncompleted_append (hes l)]
    exact hw l
  · rw [hj, readsUnderWay_append (hes l), List.length_map]

namespace GuardContract

open Act Evaluate

theorem note {w : World α V M} {e : Event α V} (he : ∀ l, e.SparesLink l)
    (hw : (guardContract α V M).holds w) :
    (guardContract α V M).Allows w (w.note e) :=
  guardContract_quiet [e] (by simp) (by simpa using he) (fun _ => rfl) hw

theorem modifyAnimation {w : World α V M} (a : AnimationId)
    (f : Animation α V → Animation α V) (hw : (guardContract α V M).holds w) :
    (guardContract α V M).Allows w (w.modifyAnimation a f) :=
  guardContract_quiet [] (by simp) (by simp) (fun _ => rfl) hw

/-- A change of an animation that is taken down. -/
theorem changed (a : AnimationId) (f : Animation α V → Animation α V) {e : Event α V}
    (he : ∀ l, e.SparesLink l) (hw : (guardContract α V M).holds w) :
    (guardContract α V M).Allows w ((w.modifyAnimation a f).note e) := by
  have h₁ := modifyAnimation a f hw
  exact h₁.trans (note he h₁.1)

theorem welcomes : (guardContract α V M).Welcomes where
  noted _ _ := note fun _ => ⟨rfl, rfl⟩
  added w ss sc hsc := guardContract_quiet [.added w.scene.animations.size ss] (by simp)
    (by simp [Event.SparesLink, Event.beginsRead, Event.completesRead]) hsc.busy
  linked _ _ hsc := guardContract_quiet [] (by simp) (by simp) hsc.busy
  remembered _ _ := guardContract_quiet [] (by simp) (by simp) fun _ => rfl

variable {w w' : World α V M} {l : LinkId}

/-- A read attempt that meets a cycle lowers the guard, and no read of the link under way is
uncompleted after it. -/
theorem cycleMet (l : LinkId) (hw : (guardContract α V M).holds w) :
    (guardContract α V M).Allows w
      ((w.note (.cycleMet l)).modifyLink l fun link => { link with busy := false }) := by
  refine ⟨fun m => ?_, fun m => ⟨fun hb => ?_, ?_⟩⟩
  · simp only [World.modifyLink_scene, World.note_scene, World.modifyLink_journal,
      World.note_journal, Scene.busy_lowered]
    by_cases hm : l = m
    · subst hm
      simp [not_readUncompleted_of_completes (l := l) (e := .cycleMet l) (beq_self_eq_true l)]
    · rw [readUncompleted_append (by simp [Event.SparesLink, Event.beginsRead,
        Event.completesRead, hm])]
      simp [hm, hw m]
  · exact ((Scene.busy_lowered _ _ _).mp hb).2
  · rw [World.modifyLink_journal, World.note_journal, readsUnderWay,
      underWay_append _ _ (by simp [Event.beginsRead, Event.finishesRead])]
    exact List.length_map _

/-- The guard of a link is raised when a read of it begins. -/
theorem readBegan (hl : l < w.scene.links.size) (hw : (guardContract α V M).holds w) :
    (guardContract α V M).holds
      ((w.note (.readBegan l)).modifyLink l fun link => { link with busy := true }) := by
  intro m
  simp only [World.modifyLink_scene, World.note_scene, World.modifyLink_journal,
    World.note_journal, Scene.busy_raised w.scene hl]
  by_cases hm : l = m
  · subst hm
    simp [readUncompleted_readBegan]
  · rw [readUncompleted_append (by simp [Event.SparesLink, Event.beginsRead,
      Event.completesRead, hm])]
    simp [hm, hw m]

/-- The read is over. Whatever happened in between, it was not left under way. -/
theorem readFinished (hl : l < w.scene.links.size) (v : α)
    (h : (guardContract α V M).Allows
      ((w.note (.readBegan l)).modifyLink l fun link => { link with busy := true }) w') :
    (guardContract α V M).Allows w
      ((w'.modifyLink l fun link => { link with busy := false }).note (.readFinished l v)) := by
  refine ⟨fun m => ?_, fun m => ?_⟩
  · simp only [World.modifyLink_scene, World.note_scene, World.modifyLink_journal,
      World.note_journal, Scene.busy_lowered]
    by_cases hm : l = m
    · subst hm
      simp [not_readUncompleted_of_completes (l := l) (e := .readFinished l v)
        (beq_self_eq_true l)]
    · rw [readUncompleted_append (by simp [Event.SparesLink, Event.beginsRead,
        Event.completesRead, hm])]
      simp [hm, h.1 m]
  · obtain ⟨hb, hlen⟩ := h.2 m
    simp only [World.modifyLink_scene, World.note_scene, World.modifyLink_journal,
      World.note_journal, Scene.busy_raised w.scene hl] at hb hlen
    simp only [World.modifyLink_scene, World.note_scene, World.modifyLink_journal,
      World.note_journal, Scene.busy_lowered]
    by_cases hm : l = m
    · subst hm
      constructor
      · intro h
        exact absurd rfl h.1
      · rw [length_readsUnderWay_finished, hlen, length_readsUnderWay_began, Nat.add_sub_cancel]
    · constructor
      · intro h
        exact (hb h.2).resolve_left hm
      · rw [readsUnderWay_append (by simp [Event.SparesLink, Event.beginsRead,
          Event.completesRead, hm])] at hlen ⊢
        simpa using hlen

variable [Scalar α] {host : Host α V M}

/-! ### The rules -/

theorem keeps_sample (through : Option LinkId) (a : AnimationId) (clock : Clock α)
    (hw : (guardContract α V M).holds w) :
    (sample host through a clock).Keeps (guardContract α V M)
      (fun _ w' => (guardContract α V M).Allows w w') w := by
  have h₁ := note (e := .sampleBegan a through) (fun _ => ⟨rfl, rfl⟩) hw
  simp only [sample, bind_eq_bind, keeps_bind, keeps_note, keeps_animation]
  have hstrategy : (strategy host a clock (w.scene.animation a).strategy).Keeps
      (guardContract α V M) (fun _ w' => (guardContract α V M).Allows _ w') _ :=
    (guardContract α V M).keeps_strategy (fun hw a f _ => modifyAnimation a f hw) a clock _ h₁.1
  refine (hstrategy.after h₁).mono ?_
  intro s w₂ h₂
  exact h₂.trans (note (fun _ => ⟨rfl, rfl⟩) h₂.1)

theorem keeps_evaluateIn (a : AnimationId) (l : LinkId) (clock : Clock α)
    (hw : (guardContract α V M).holds w) :
    (evaluateIn host a l clock).Keeps (guardContract α V M)
      (fun _ w' => (guardContract α V M).Allows w w') w := by
  exact Contract.keeps_evaluateIn (keeps_sample (some l) a clock hw)
    fun hw _ _ => note (fun _ => ⟨rfl, rfl⟩) hw

theorem keeps_readLink (l : LinkId) (clock : Clock α) (hw : (guardContract α V M).holds w) :
    (readLink host l clock).Keeps (guardContract α V M)
      (fun _ w' => (guardContract α V M).Allows w w') w := by
  simp only [readLink, bind_eq_bind, keeps_bind, keeps_link?]
  split
  · exact ⟨hw, fun _ => ⟨id, rfl⟩⟩
  · rename_i here hlink
    have hl : l < w.scene.links.size := (Array.getElem?_eq_some_iff.mp hlink).1
    split
    · exact ⟨hw, fun _ => ⟨id, rfl⟩⟩
    · split
      · exact cycleMet l hw
      · simp only [keeps_bind, keeps_note, keeps_modifyLink]
        refine (keeps_evaluateIn here.target l clock (readBegan hl hw)).mono ?_
        intro v w₂ h
        exact readFinished hl v h

end GuardContract

open GuardContract in
theorem guardContract_sound [Scalar α] (host : Host α V M) : (guardContract α V M).Sound host := by
  apply (@welcomes α V M).sound
  case hsource => exact fun hw s => note (fun _ => ⟨rfl, rfl⟩) hw
  case hsample => exact fun hw a clock => keeps_sample none a clock hw
  case hevaluate => exact fun hw a l clock => keeps_evaluateIn a l clock hw
  case hlink => exact fun hw l clock => keeps_readLink l clock hw
  case hhold => exact fun hw a _ => changed a _ (fun _ => ⟨rfl, rfl⟩) hw
  case hrelease => exact fun hw a _ => changed a _ (fun _ => ⟨rfl, rfl⟩) hw
  case hreconfigure => exact fun hw a _ _ _ _ => changed a _ (fun _ => ⟨rfl, rfl⟩) hw
  case hsetHook => exact fun hw a _ _ => changed a _ (fun _ => ⟨rfl, rfl⟩) hw
  case hsetPin =>
    intro w hw l pin
    refine guardContract_quiet [.pinSet l pin] (by simp) (by simp [Event.SparesLink,
      Event.beginsRead, Event.completesRead]) (fun m => ?_) hw
    simp only [World.note_scene, World.modifyLink_scene, Scene.link_modifyLink]
    split <;> rfl

/-! ## Every moment of every run -/

/-- **Guards tell reads.** Whatever host code does in between, at every moment a link is busy
exactly if a read of it is under way and no attempt to read it has come to an end since the
innermost one began. Whenever an outermost call has been answered, every link is idle, clones
included, and no read is under way. -/
theorem busy_iff_readUncompleted [Scalar α] {β : Type} (host : Host α V M) (r : Routine α V M β)
    {w : World α V M} (fresh : w.journal = #[]) (idle : w.scene.Idle) :
    (∀ w', host.Reaches r w w' → ∀ l,
      (w'.scene.link l).busy = true ↔ ReadUncompleted l w'.journal.toList) ∧
    (∀ w', host.Pauses r w w' →
      w'.scene.Idle ∧ ∀ l, readsUnderWay l w'.journal.toList = []) := by
  have hw : (guardContract α V M).holds w := by
    intro l
    simp [idle l, fresh, ReadUncompleted, readsUnderWay]
  constructor
  · intro w' h
    exact (guardContract_sound host).reaches hw h
  · intro w' h
    have hm := ((guardContract_sound host).pauses hw h).2
    constructor
    · intro l
      have hb := (hm l).1
      rw [idle l] at hb
      exact Bool.eq_false_iff.mpr fun hbusy => Bool.false_ne_true (hb hbusy)
    · intro l
      have hlen := (hm l).2
      rw [fresh] at hlen
      exact List.eq_nil_of_length_eq_zero hlen

namespace Echo

/-! A source that reads the link through which it is being read. -/

def vocabulary : Vocabulary := ⟨Unit, Empty, Empty⟩

def host : Host Float vocabulary Unit where
  source _ := Routine.ask (.read (.link 0) .new)
  hook := Empty.elim
  strategy := Empty.elim

def world : World Float vocabulary Unit where
  scene :=
    { animations := #[{ strategy := .wrap (.external ()) (.constant 0.0) (.constant 1.0) }]
      links := #[{ target := 0 }] }
  memory := ()

def reader : Routine Float vocabulary Unit Float := Routine.ask (.read (.link 0) .new)

/-- While the source runs its link is busy. Once the source has met the cycle the link is idle,
although the read is still under way. -/
theorem busy_until_cycle :
    (∃ w', host.Reaches reader world w' ∧ ReadUncompleted 0 w'.journal.toList) ∧
    (∃ w', host.Reaches reader world w' ∧ readsUnderWay 0 w'.journal.toList ≠ [] ∧
      ¬ ReadUncompleted 0 w'.journal.toList) ∧
    ∃ w', host.Pauses reader world w' ∧ w'.scene.Idle := by
  have idle : world.scene.Idle := by
    intro l
    cases l with
    | zero => rfl
    | succ l => rfl
  have told := busy_iff_readUncompleted host reader (w := world) rfl idle
  have before : ∃ w', host.Reaches reader world w' ∧ (w'.scene.link 0).busy = true :=
    ⟨_, .within (.look (.update (.update (.update (.look (.within (.update .made))))))), rfl⟩
  have behind : ∃ w', host.Reaches reader world w' ∧ readsUnderWay 0 w'.journal.toList ≠ [] ∧
      (w'.scene.link 0).busy = false :=
    ⟨_, .within (.look (.update (.update (.update (.look
      (.within (.update (.answered ⟨1, rfl⟩)))))))), by
      simp [readsUnderWay, underWay, underWayStep, Event.beginsRead, Event.finishesRead, world],
      rfl⟩
  have answered : ∃ w', host.Pauses reader world w' := ⟨_, .first ⟨3, rfl⟩⟩
  obtain ⟨w₁, h₁, hb₁⟩ := before
  obtain ⟨w₂, h₂, hr₂, hb₂⟩ := behind
  obtain ⟨w₃, h₃⟩ := answered
  refine ⟨⟨w₁, h₁, (told.1 w₁ h₁ 0).mp hb₁⟩, ⟨w₂, h₂, hr₂, fun hu => ?_⟩,
    ⟨w₃, h₃, (told.2 w₃ h₃).1⟩⟩
  simpa [hb₂] using (told.1 w₂ h₂ 0).mpr hu

end Echo

end Inbetween
