import Inbetween.Proofs.Hooks
import Inbetween.Proofs.Plans

/-!
# Pins on a shared animation

An animation that is a function of the clock time may be read through any number of slots. Its hook
settles the slot that has found it over on the end value. Then each slot has a story of its own: it
reports the function until its first read past the end, and the end value of that read from then on,
wherever the clock goes, until its pin is set anew. The hook runs for these first reads and for no
others. Stories are told here from the visits alone, without looking at links.
-/

namespace Inbetween

open Act Evaluate Routine

variable {α : Type} {V : Vocabulary} {M : Type}

/-- The end value, if the animation is over. -/
def Sample.finish? : Sample α → Option α
  | .value _ => none
  | .ended v => some v

/-! ## Stories -/

/-- What a slot has been through: the pin it was made with or was last given, and the clock times at
which it has been read since. -/
structure Story (α : Type) where
  link : LinkId
  given : Option α
  times : List α := []

namespace Story

def readAt (s : Story α) (t : α) : Story α := { s with times := s.times ++ [t] }

/-- The story begins anew with a pin. -/
def repin (s : Story α) (pin : Option α) : Story α := { link := s.link, given := pin }

variable (f : α → Sample α) (s : Story α)

/-- The pin is the given one, or else the end value at the first time at which the animation, read
through this slot, was over. -/
def pin : Option α := s.given <|> s.times.findSome? fun t => (f t).finish?

/-- What a read at a time reports: the pin, to which this read belongs, or else the function. -/
def report (t : α) : α := ((s.readAt t).pin f).getD (f t).get

/-- The end value that a read at a time is the first one to find. -/
def firstEnd? (t : α) : Option α := if (s.pin f).isNone then (f t).finish? else none

variable {f s}

@[simp] theorem readAt_link (t : α) : (s.readAt t).link = s.link := rfl

@[simp] theorem repin_link (pin : Option α) : (s.repin pin).link = s.link := rfl

@[simp] theorem pin_repin (pin : Option α) : (s.repin pin).pin f = pin := by
  simp [Story.pin, repin]

theorem pin_readAt (t : α) : (s.readAt t).pin f = (s.pin f <|> (f t).finish?) := by
  simp [pin, readAt, List.findSome?_append, Option.or_assoc]

theorem readAt_of_pinned {v : α} (h : s.pin f = some v) (t : α) :
    (s.readAt t).pin f = some v ∧ s.report f t = v ∧ s.firstEnd? f t = none := by
  have hpin : (s.readAt t).pin f = some v := by rw [pin_readAt, h]; rfl
  exact ⟨hpin, by rw [report, hpin]; rfl, by rw [firstEnd?, h]; rfl⟩

theorem readAt_of_unpinned (h : s.pin f = none) (t : α) :
    (s.readAt t).pin f = (f t).finish? ∧ s.report f t = (f t).get ∧
      s.firstEnd? f t = (f t).finish? := by
  have hpin : (s.readAt t).pin f = (f t).finish? := by rw [pin_readAt, h]; rfl
  refine ⟨hpin, ?_, by rw [firstEnd?, h]; rfl⟩
  rw [report, hpin]
  cases f t <;> rfl

end Story

/-! ## Visits -/

/-- One thing that a host does with the slots of an animation, which it knows by their order. -/
inductive Visit (α : Type) where
  | read (k : Nat)
  /-- The animation is evaluated on its own. -/
  | evaluate
  | move (clock : Clock α)
  /-- A slot is settled or unsettled by hand. -/
  | set (k : Nat) (pin : Option α)
  /-- A slot is cloned, and the clone becomes the last slot. -/
  | clone (k : Nat)

/-- The stories of all slots, the values that were reported, and the hook runs with their slots and
end values. -/
structure Ledger (α : Type) where
  clock : Clock α
  stories : List (Story α)
  /-- The name of the next new link. -/
  next : LinkId
  reports : List α := []
  runs : List (LinkId × α) := []

namespace Ledger

/-- No visit has been made. -/
def start (sc : Scene α V) (links : List LinkId) (clock : Clock α) : Ledger α where
  clock := clock
  stories := links.map fun l => { link := l, given := (sc.link l).pin }
  next := sc.links.size

/-- What a visit adds. A clone starts its story with the pin that the original has by then. -/
def after (f : α → Sample α) (led : Ledger α) : Visit α → Ledger α
  | .read k =>
    match led.stories[k]? with
    | none => led
    | some s =>
      { led with
        stories := led.stories.set k (s.readAt led.clock.time)
        reports := led.reports ++ [s.report f led.clock.time]
        runs := led.runs ++ ((s.firstEnd? f led.clock.time).map (s.link, ·)).toList }
  | .evaluate => { led with reports := led.reports ++ [(f led.clock.time).get] }
  | .move clock => { led with clock := clock }
  | .set k pin =>
    match led.stories[k]? with
    | none => led
    | some s => { led with stories := led.stories.set k (s.repin pin) }
  | .clone k =>
    match led.stories[k]? with
    | none => led
    | some s =>
      { led with
        stories := led.stories ++ [{ link := led.next, given := s.pin f }]
        next := led.next + 1 }

end Ledger

/-- Makes a visit. Gives the clock and the slots from then on, and the value that was read. -/
def Routine.visit (a : AnimationId) (clock : Clock α) (links : List LinkId) :
    Visit α → Routine α V M (Clock α × List LinkId × List α)
  | .read k =>
    match links[k]? with
    | none => return (clock, links, [])
    | some l => do
      let v ← ask (.read (.link l) clock)
      return (clock, links, [v])
  | .evaluate => do
    let v ← evaluate a clock
    return (clock, links, [v])
  | .move clock => return (clock, links, [])
  | .set k pin =>
    match links[k]? with
    | none => return (clock, links, [])
    | some l => do
      ask (.setPin l pin)
      return (clock, links, [])
  | .clone k =>
    match links[k]? with
    | none => return (clock, links, [])
    | some l => do
      match ← ask (.cloneSlot (.link l)) with
      | .link copy => return (clock, links ++ [copy], [])
      | _ => return (clock, links, [])

/-- Makes one visit after the other and gives the values that were read. -/
def Routine.visitAll (a : AnimationId) (clock : Clock α) (links : List LinkId) :
    List (Visit α) → Routine α V M (List α)
  | [] => return []
  | v :: rest => do
    let (clock, links, reports) ← visit a clock links v
    let later ← visitAll a clock links rest
    return reports ++ later

/-! ## Worlds -/

/-- The runs of a hook, by their links and end values. -/
def runsOf [DecidableEq V.Hook] (hook : V.Hook) (j : List (Event α V)) : List (LinkId × α) :=
  (hookRuns j).filterMap fun r => if r.hook = hook then some (r.through, r.finish) else none

theorem runsOf_append [DecidableEq V.Hook] (hook : V.Hook) (j es : List (Event α V)) :
    runsOf hook (j ++ es) = runsOf hook j ++ runsOf hook es := by
  simp [runsOf, hookRuns]

theorem runsOf_eq_nil [DecidableEq V.Hook] {hook : V.Hook} {es : List (Event α V)}
    (h : ∀ l v, .hookRun hook l v ∉ es) : runsOf hook es = [] := by
  simp only [runsOf, hookRuns, List.filterMap_eq_nil_iff, List.mem_filterMap,
    ite_eq_right_iff, reduceCtorEq, imp_false]
  rintro ⟨_, l, v⟩ ⟨e, he, hrun⟩ rfl
  cases e <;> simp only [Event.hookRun?, reduceCtorEq, Option.some.injEq, HookRun.mk.injEq] at hrun
  obtain ⟨rfl, rfl, rfl⟩ := hrun
  exact h _ _ he

/-- The worlds differ in their journals, and in links to the animation or new ones. -/
structure World.Kin (a : AnimationId) (w w' : World α V M) : Prop where
  animations : w'.scene.animations = w.scene.animations
  memory : w'.memory = w.memory
  links : ∀ (l : LinkId) (here : Link α), w.scene.links[l]? = some here → here.target ≠ a →
    w'.scene.links[l]? = some here

/-- The sample of the animation is a function of the clock time: it does not depend on the slots of
the animation, leaves nothing behind but events, and does not run the hook. -/
def Host.SamplesBy [Scalar α] (host : Host α V M) (w : World α V M) (a : AnimationId)
    (hook : V.Hook) (f : α → Sample α) : Prop :=
  ∀ (w' : World α V M) (through : Option LinkId) (clock : Clock α), w.Kin a w' →
    ∃ es, (sample host through a clock).Yields host w' (f clock.time) (w'.record es) ∧
      ∀ l v, .hookRun hook l v ∉ es

/-- The hook settles its slot on the end value and returns it. -/
def Host.Settles (host : Host α V M) (hook : V.Hook) : Prop :=
  ∀ l v, host.hook hook l v = (do ask (.setPin l (some v)); return v)

namespace World

variable {w₀ w w' : World α V M} {a : AnimationId}

theorem Kin.refl (w : World α V M) (a : AnimationId) : w.Kin a w := ⟨rfl, rfl, fun _ _ h _ => h⟩

/-- A change of a link to the animation. -/
theorem Kin.changeLink (h : w₀.Kin a w) {l : LinkId} {here : Link α}
    (found : w.scene.links[l]? = some here) (target : here.target = a)
    (animations : w'.scene.animations = w.scene.animations) (memory : w'.memory = w.memory)
    (links : ∀ m : LinkId, m ≠ l → w'.scene.links[m]? = w.scene.links[m]?) : w₀.Kin a w' where
  animations := animations.trans h.animations
  memory := memory.trans h.memory
  links m there hm hother := by
    have hw := h.links m there hm hother
    rw [links m ?_, hw]
    rintro rfl
    obtain rfl : there = here := Option.some.inj (hw.symm.trans found)
    exact hother target

/-- From one world to the other only the pin of one slot of the animation is new, and there are the
given runs of the hook. -/
structure Pins [DecidableEq V.Hook] (w : World α V M) (a : AnimationId) (hook : V.Hook)
    (l : LinkId) (pin : Option α) (runs : List (LinkId × α)) (w' : World α V M) : Prop where
  animations : w'.scene.animations = w.scene.animations
  memory : w'.memory = w.memory
  size : w'.scene.links.size = w.scene.links.size
  own : w'.scene.links[l]? = some { target := a, pin := pin }
  others : ∀ m : LinkId, m ≠ l → w'.scene.links[m]? = w.scene.links[m]?
  runs : runsOf hook w'.journal.toList = runsOf hook w.journal.toList ++ runs

/-- A pin that is set by hand. -/
theorem Pins.setPin [DecidableEq V.Hook] {hook : V.Hook} {l : LinkId} {old : Option α}
    (found : w.scene.links[l]? = some { target := a, pin := old }) (pin : Option α) :
    w.Pins a hook l pin [] (w.setPin l pin) where
  animations := rfl
  memory := rfl
  size := by simp [World.setPin, Scene.modifyLink]
  own := by simp [World.setPin, Scene.modifyLink, Array.getElem?_modify, found]
  others m hm := by simp [World.setPin, Scene.modifyLink, Array.getElem?_modify, hm.symm]
  runs := by
    have hset : ∀ m u, Event.hookRun hook m u ∉ [Event.pinSet l pin] := by simp
    rw [World.setPin, World.note_journal, runsOf_append, runsOf_eq_nil hset]
    rfl

end World

section Reading

variable [Scalar α] [DecidableEq V.Hook] {host : Host α V M} {w₀ w : World α V M}
  {a : AnimationId} {hook : V.Hook} {f : α → Sample α}

/-- A read of a slot without a pin reports the function, and if the animation is over, it leaves the
slot settled on the end value. -/
theorem Host.SamplesBy.answers_read (pure : host.SamplesBy w₀ a hook f)
    (settles : host.Settles hook) (installed : (w₀.scene.animation a).hook = some hook)
    (kin : w₀.Kin a w) {l : LinkId} (found : w.scene.links[l]? = some { target := a })
    (clock : Clock α) :
    ∃ w', host.Answers (.read (.link l) clock) w (f clock.time).get w' ∧
      w.Pins a hook l (f clock.time).finish?
        ((f clock.time).finish?.map (l, ·)).toList w' := by
  have entered : w₀.Kin a (w.enter l) := by
    refine kin.changeLink found rfl rfl rfl fun m hm => ?_
    simp [World.enter, Scene.modifyLink, Array.getElem?_modify, hm.symm]
  obtain ⟨es, hsample, hes⟩ := pure (w.enter l) (some l) clock entered
  have hhook : (((w.enter l).record es).scene.animation a).hook = some hook := by
    rw [← installed, Scene.animation, Scene.animation, ← kin.animations]
    rfl
  have reads : ∀ {v : α} {w₁ : World α V M},
      (evaluateIn host a l clock).Yields host (w.enter l) v w₁ →
        host.Answers (.read (.link l) clock) w v (w₁.leave l v) := by
    intro v w₁ h
    refine answers_read_link.mpr ?_
    rw [Host.Reads, found]
    exact ⟨w₁, Host.answers_iff.mpr h, rfl⟩
  cases hs : f clock.time with
  | value v =>
      rw [hs] at hsample
      have hvalue : host.Concludes a l (.value v) ((w.enter l).record es) v
        ((w.enter l).record es) := ⟨rfl, rfl⟩
      refine ⟨((w.enter l).record es).leave l v,
        reads (yields_evaluateIn.mpr ⟨_, _, hsample, hvalue⟩), rfl, rfl, ?_, ?_, ?_, ?_⟩
      · simp [World.leave, World.enter, Scene.modifyLink]
      · simp [World.leave, World.enter, Scene.modifyLink, Array.getElem?_modify, found,
          Sample.finish?]
      · intro m hm
        simp [World.leave, World.enter, Scene.modifyLink, Array.getElem?_modify, hm.symm]
      · have hjournal : (((w.enter l).record es).leave l v).journal.toList =
            w.journal.toList ++ (.readBegan l :: (es ++ [.readFinished l v])) := by
          simp [World.leave, World.enter, World.record]
        have hspared : ∀ m u, .hookRun hook m u ∉ .readBegan l :: (es ++ [.readFinished l v]) := by
          simp [hes]
        rw [hjournal, runsOf_append, runsOf_eq_nil hspared]
        rfl
  | ended v =>
      rw [hs] at hsample
      let ran := ((w.enter l).record es).note (.hookRun hook l v)
      have hthere : ran.scene.links[l]?.isSome = true := by
        simp [ran, World.enter, Scene.modifyLink, Array.getElem?_modify, found]
      have hset : host.Answers (.setPin l (some v)) ran () (ran.setPin l (some v)) := by
        rw [answers_setPin, if_pos hthere]
      have hvalue : host.Concludes a l (.ended v) ((w.enter l).record es) v
          (ran.setPin l (some v)) := by
        simp only [Host.Concludes, hhook, settles l v]
        exact yields_call.mpr ⟨(), _, hset, yields_done.mpr ⟨rfl, rfl⟩⟩
      refine ⟨(ran.setPin l (some v)).leave l v,
        reads (yields_evaluateIn.mpr ⟨_, _, hsample, hvalue⟩), rfl, rfl, ?_, ?_, ?_, ?_⟩
      · simp [World.setPin, ran, World.leave, World.enter, Scene.modifyLink]
      · simp [World.setPin, ran, World.leave, World.enter, Scene.modifyLink,
          Array.getElem?_modify, found, Sample.finish?]
      · intro m hm
        simp [World.setPin, ran, World.leave, World.enter, Scene.modifyLink,
          Array.getElem?_modify, hm.symm]
      · have hjournal : ((ran.setPin l (some v)).leave l v).journal.toList =
            (w.journal.toList ++ (.readBegan l :: es)) ++ ([.hookRun hook l v] ++
              [.pinSet l (some v), .readFinished l v]) := by
          simp [World.setPin, ran, World.leave, World.enter, World.record]
        have hbefore : ∀ m u, .hookRun hook m u ∉ .readBegan l :: es := by simp [hes]
        have hafter : ∀ m u, Event.hookRun hook m u ∉
            [.pinSet l (some v), .readFinished l v] := by simp
        rw [hjournal, runsOf_append, runsOf_append, runsOf_append, runsOf_eq_nil hbefore,
          runsOf_eq_nil hafter]
        simp [runsOf, hookRuns, Event.hookRun?, Sample.finish?]

omit [DecidableEq V.Hook] in
theorem answers_cloneSlot {slot copy : Slot α V} {w' : World α V M} :
    host.Answers (.cloneSlot slot) w copy w' ↔
      copy = (w.scene.cloneSlot slot).1 ∧ w' = { w with scene := (w.scene.cloneSlot slot).2 } := by
  rw [Host.answers_iff]
  show (extend fun sc => sc.cloneSlot slot).Yields host w copy w' ↔ _
  simp only [extend, yields_look, yields_update, yields_done]

omit [DecidableEq V.Hook] in
/-- A slot with a pin reports it. -/
theorem Host.answers_read_pinned {l : LinkId} {pin : α}
    (found : w.scene.links[l]? = some { target := a, pin := some pin }) (clock : Clock α) :
    host.Answers (.read (.link l) clock) w pin w := by
  rw [answers_read_link, Host.Reads, found]
  exact ⟨rfl, rfl⟩

end Reading

/-! ## Ledgers -/

namespace Ledger

def links (led : Ledger α) : List LinkId := led.stories.map (·.link)

/-- The slots have names of their own, and only they have had the hook run. -/
structure Proper (led : Ledger α) : Prop where
  distinct : led.links.Nodup
  known : ∀ l ∈ led.links, l < led.next
  ran : ∀ r ∈ led.runs, r.1 ∈ led.links

variable {led : Ledger α} {j k : Nat} {s s' : Story α}

theorem links_getElem? (led : Ledger α) (k : Nat) :
    led.links[k]? = led.stories[k]?.map (·.link) := by
  rw [links, List.getElem?_map]

theorem mem_links (h : led.stories[k]? = some s) : s.link ∈ led.links :=
  List.mem_map_of_mem (List.mem_of_getElem? h)

theorem stories_set (h : led.stories[k]? = some s) (j : Nat) :
    (led.stories.set k s')[j]? = if k = j then some s' else led.stories[j]? := by
  simp [List.getElem?_set, (List.getElem?_eq_some_iff.mp h).1]

theorem links_set (h : led.stories[k]? = some s) (hlink : s'.link = s.link) :
    (led.stories.set k s').map (·.link) = led.links := by
  refine List.ext_getElem? fun j => ?_
  rw [links_getElem?, List.getElem?_map, stories_set h]
  split
  · rename_i hj
    rw [← hj, h, Option.map_some, Option.map_some, hlink]
  · rfl

theorem Proper.eq_of_link (h : led.Proper) (hs : led.stories[j]? = some s)
    (hs' : led.stories[k]? = some s') (hlink : s.link = s'.link) : j = k := by
  refine (List.getElem?_inj ?_ h.distinct).mp ?_
  · simpa [links] using (List.getElem?_eq_some_iff.mp hs).1
  · rw [links_getElem?, links_getElem?, hs, hs', Option.map_some, Option.map_some, hlink]

/-- No slot is new. -/
theorem Proper.of_links (h : led.Proper) {led' : Ledger α} (links : led'.links = led.links)
    (next : led'.next = led.next) (ran : ∀ r ∈ led'.runs, r.1 ∈ led.links) : led'.Proper where
  distinct := links ▸ h.distinct
  known := by rw [links, next]; exact h.known
  ran := by rw [links]; exact ran

theorem Proper.after (h : led.Proper) (f : α → Sample α) (v : Visit α) :
    (led.after f v).Proper := by
  cases v with
  | read k =>
      cases hs : led.stories[k]? with
      | none => simpa only [Ledger.after, hs] using h
      | some s =>
          simp only [Ledger.after, hs]
          refine h.of_links (links_set hs rfl) rfl fun r hr => ?_
          rcases List.mem_append.mp hr with hr | hr
          · exact h.ran r hr
          · obtain ⟨v, -, rfl⟩ := Option.map_eq_some_iff.mp (Option.mem_toList.mp hr)
            exact mem_links hs
  | evaluate => exact ⟨h.distinct, h.known, h.ran⟩
  | move clock => exact ⟨h.distinct, h.known, h.ran⟩
  | set k pin =>
      cases hs : led.stories[k]? with
      | none => simpa only [Ledger.after, hs] using h
      | some s =>
          simp only [Ledger.after, hs]
          exact h.of_links (links_set hs rfl) rfl h.ran
  | clone k =>
      cases hs : led.stories[k]? with
      | none => simpa only [Ledger.after, hs] using h
      | some s =>
          have hlinks : (led.after f (.clone k)).links = led.links ++ [led.next] := by
            simp [Ledger.after, hs, links]
          have hnext : (led.after f (.clone k)).next = led.next + 1 := by
            simp only [Ledger.after, hs]
          have hruns : (led.after f (.clone k)).runs = led.runs := by
            simp only [Ledger.after, hs]
          refine ⟨?_, ?_, ?_⟩
          · rw [hlinks, List.nodup_append]
            refine ⟨h.distinct, by simp, fun l hl m hm => ?_⟩
            rw [List.mem_singleton.mp hm]
            exact Nat.ne_of_lt (h.known l hl)
          · rw [hlinks, hnext]
            intro l hl
            rcases List.mem_append.mp hl with hl | hl
            · exact Nat.lt_succ_of_lt (h.known l hl)
            · rw [List.mem_singleton.mp hl]
              exact Nat.lt_succ_self _
          · rw [hlinks, hruns]
            exact fun r hr => List.mem_append_left _ (h.ran r hr)

/-- The runs that there have been for one slot. -/
def runsFor (led : Ledger α) (l : LinkId) : List α :=
  led.runs.filterMap fun r => if r.1 = l then some r.2 else none

/-- The slot is the same one in both ledgers, and it has not been settled or unsettled by hand. It
keeps its pin, and the hook has run for it if the pin is new, once and with the pin. -/
structure Continues (f : α → Sample α) (k : Nat) (led : Ledger α) (s : Story α) (led' : Ledger α)
    (s' : Story α) : Prop where
  found : led'.stories[k]? = some s'
  link : s'.link = s.link
  keeps : ∀ v, s.pin f = some v → s'.pin f = some v
  runs : led'.runsFor s.link =
    led.runsFor s.link ++ if (s.pin f).isSome then [] else (s'.pin f).toList

variable {f : α → Sample α}

theorem Continues.refl (h : led.stories[k]? = some s) : Continues f k led s led s where
  found := h
  link := rfl
  keeps _ hv := hv
  runs := by cases s.pin f <;> simp

theorem Continues.trans {led' led'' : Ledger α} {s'' : Story α}
    (h : Continues f k led s led' s') (h' : Continues f k led' s' led'' s'') :
    Continues f k led s led'' s'' where
  found := h'.found
  link := h'.link.trans h.link
  keeps v hv := h'.keeps v (h.keeps v hv)
  runs := by
    have hruns := h'.runs
    rw [h.link, h.runs] at hruns
    rw [hruns, List.append_assoc]
    congr 1
    cases hs : s.pin f with
    | some v => simp [h.keeps v hs]
    | none =>
        cases hs' : s'.pin f with
        | some v => simp [h'.keeps v hs']
        | none => simp

/-- A visit that leaves the story and the runs for a slot as they are. -/
theorem Continues.same {led' : Ledger α} (h : led.stories[k]? = some s)
    (found : led'.stories[k]? = some s) (runs : led'.runsFor s.link = led.runsFor s.link) :
    Continues f k led s led' s :=
  ⟨found, rfl, fun _ hv => hv, runs.trans (Continues.refl (f := f) h).runs⟩

/-- Every visit continues the story of a slot, other than setting its pin. -/
theorem Continues.after (h : led.Proper) (hs : led.stories[k]? = some s) {v : Visit α}
    (unset : ∀ pin, v ≠ .set k pin) : ∃ s', Continues f k led s (led.after f v) s' := by
  cases v with
  | read j =>
      cases ht : led.stories[j]? with
      | none => exact ⟨s, by simpa [Ledger.after, ht] using refl hs⟩
      | some t =>
          by_cases hj : j = k
          · obtain rfl : t = s := Option.some.inj (ht.symm.trans (hj ▸ hs))
            refine ⟨t.readAt led.clock.time, ?_, rfl, fun v hv => ?_, ?_⟩
            · simp only [Ledger.after, ht, stories_set ht, if_pos hj]
            · exact (Story.readAt_of_pinned hv _).1
            · simp only [Ledger.after, ht, runsFor, List.filterMap_append]
              congr 1
              cases hpin : t.pin f with
              | some v => simp [Story.firstEnd?, hpin]
              | none =>
                  have hnews := Story.readAt_of_unpinned hpin led.clock.time
                  rw [hnews.1, hnews.2.2]
                  cases (f led.clock.time).finish? <;> simp
          · refine ⟨s, .same hs ?_ ?_⟩
            · simp only [Ledger.after, ht, stories_set ht, if_neg hj, hs]
            · have hlink : t.link ≠ s.link := fun heq => hj (h.eq_of_link ht hs heq)
              simp only [Ledger.after, ht, runsFor, List.filterMap_append]
              cases t.firstEnd? f led.clock.time <;> simp [hlink]
  | evaluate => exact ⟨s, .same hs hs rfl⟩
  | move clock => exact ⟨s, .same hs hs rfl⟩
  | set j pin =>
      have hj : j ≠ k := fun heq => unset pin (by rw [heq])
      cases ht : led.stories[j]? with
      | none => exact ⟨s, by simpa [Ledger.after, ht] using refl hs⟩
      | some t =>
          refine ⟨s, .same hs ?_ ?_⟩
          · simp only [Ledger.after, ht, stories_set ht, if_neg hj, hs]
          · simp only [Ledger.after, ht, runsFor]
  | clone j =>
      cases ht : led.stories[j]? with
      | none => exact ⟨s, by simpa [Ledger.after, ht] using refl hs⟩
      | some t =>
          refine ⟨s, .same hs ?_ ?_⟩
          · simp only [Ledger.after, ht]
            rw [List.getElem?_append_left (List.getElem?_eq_some_iff.mp hs).1, hs]
          · simp only [Ledger.after, ht, runsFor]

theorem Proper.foldl (h : led.Proper) (f : α → Sample α) (visits : List (Visit α)) :
    (visits.foldl (Ledger.after f) led).Proper := by
  induction visits generalizing led with
  | nil => exact h
  | cons v rest ih => exact ih (h.after f v)

theorem Continues.foldl (h : led.Proper) (hs : led.stories[k]? = some s) {visits : List (Visit α)}
    (unset : ∀ pin, .set k pin ∉ visits) :
    ∃ s', Continues f k led s (visits.foldl (Ledger.after f) led) s' := by
  induction visits generalizing led s with
  | nil => exact ⟨s, refl hs⟩
  | cons v rest ih =>
      obtain ⟨s₁, h₁⟩ := Continues.after (f := f) h hs fun pin heq =>
        unset pin (heq ▸ List.mem_cons_self)
      obtain ⟨s', h'⟩ := ih (h.after f v) h₁.found fun pin hpin =>
        unset pin (List.mem_cons_of_mem _ hpin)
      exact ⟨s', h₁.trans h'⟩

end Ledger

/-! ## Every visit -/

/-- The world shows what the ledger tells. -/
structure World.Shows [DecidableEq V.Hook] (w₀ : World α V M) (a : AnimationId) (hook : V.Hook)
    (f : α → Sample α) (led : Ledger α) (w : World α V M) : Prop where
  kin : w₀.Kin a w
  size : w.scene.links.size = led.next
  found : ∀ (k : Nat) (s : Story α), led.stories[k]? = some s →
    w.scene.links[s.link]? = some { target := a, pin := s.pin f }
  runs : runsOf hook w.journal.toList = runsOf hook w₀.journal.toList ++ led.runs

section Visits

variable [DecidableEq V.Hook] {w₀ w w' : World α V M} {a : AnimationId} {hook : V.Hook}
  {f : α → Sample α} {led : Ledger α}

namespace World.Shows

/-- One slot changes, and its story with it. -/
theorem change (h : w₀.Shows a hook f led w) (proper : led.Proper) {k : Nat} {s s' : Story α}
    (hs : led.stories[k]? = some s) (hlink : s'.link = s.link) {runs : List (LinkId × α)}
    (changed : w.Pins a hook s.link (s'.pin f) runs w') (reports : List α) :
    w₀.Shows a hook f { led with
      stories := led.stories.set k s', reports := reports, runs := led.runs ++ runs } w' where
  kin := h.kin.changeLink (h.found k s hs) rfl changed.animations changed.memory changed.others
  size := changed.size.trans h.size
  found j t ht := by
    rw [Ledger.stories_set hs] at ht
    split at ht
    · obtain rfl : s' = t := Option.some.inj ht
      rw [hlink]
      exact changed.own
    · rename_i hj
      rw [changed.others _ fun heq => hj (proper.eq_of_link hs ht heq.symm)]
      exact h.found j t ht
  runs := by rw [changed.runs, h.runs, List.append_assoc]

/-- A clone is a slot of its own, which has what the original is pinned to. -/
theorem clone (h : w₀.Shows a hook f led w) {k : Nat} {s : Story α}
    (hs : led.stories[k]? = some s) :
    w₀.Shows a hook f { led with
      stories := led.stories ++ [{ link := led.next, given := s.pin f }], next := led.next + 1 }
      { w with scene := (w.scene.cloneSlot (.link s.link)).2 } where
  kin := by
    refine ⟨h.kin.animations, h.kin.memory, fun l here hl hother => ?_⟩
    have hw := h.kin.links l here hl hother
    have hlt := (Array.getElem?_eq_some_iff.mp hw).1
    simp [Scene.cloneSlot, Scene.addLink, Array.getElem?_push, Nat.ne_of_lt hlt, hw]
  size := by simp [Scene.cloneSlot, Scene.addLink, h.size]
  found j t ht := by
    rw [List.getElem?_append] at ht
    split at ht
    · have hw := h.found j t ht
      have hlt := (Array.getElem?_eq_some_iff.mp hw).1
      simp [Scene.cloneSlot, Scene.addLink, Array.getElem?_push, Nat.ne_of_lt hlt, hw]
    · obtain ⟨-, rfl⟩ : _ ∧ _ = t := by simpa [List.getElem?_singleton] using ht
      simp [Scene.cloneSlot, Scene.addLink, ← h.size, Scene.link, h.found k s hs, Story.pin]
  runs := h.runs

end World.Shows

/-! ### Making a visit -/

variable [Scalar α] {host : Host α V M}

/-- A read of a slot, whatever its story. -/
theorem World.Shows.read (pure : host.SamplesBy w₀ a hook f) (settles : host.Settles hook)
    (installed : (w₀.scene.animation a).hook = some hook) (h : w₀.Shows a hook f led w)
    {k : Nat} {s : Story α} (hs : led.stories[k]? = some s) :
    ∃ w', host.Answers (.read (.link s.link) led.clock) w (s.report f led.clock.time) w' ∧
      w.Pins a hook s.link ((s.readAt led.clock.time).pin f)
        ((s.firstEnd? f led.clock.time).map (s.link, ·)).toList w' := by
  have found := h.found k s hs
  cases hpin : s.pin f with
  | some v =>
      obtain ⟨hnews, hreport, hfirst⟩ := Story.readAt_of_pinned hpin led.clock.time
      rw [hpin] at found
      rw [hnews, hreport, hfirst]
      exact ⟨w, Host.answers_read_pinned found _, rfl, rfl, rfl, found, fun _ _ => rfl, by simp⟩
  | none =>
      obtain ⟨hnews, hreport, hfirst⟩ := Story.readAt_of_unpinned hpin led.clock.time
      rw [hpin] at found
      rw [hnews, hreport, hfirst]
      exact pure.answers_read settles installed h.kin found _

/-- The visit is made in the world, which then shows what the ledger tells after it. -/
def Host.Makes (host : Host α V M) (w₀ : World α V M) (a : AnimationId) (hook : V.Hook)
    (f : α → Sample α) (led : Ledger α) (w : World α V M) (v : Visit α) : Prop :=
  ∃ reports w', (Routine.visit a led.clock led.links v).perform.Yields host w
      ((led.after f v).clock, (led.after f v).links, reports) w' ∧
    (led.after f v).reports = led.reports ++ reports ∧ w₀.Shows a hook f (led.after f v) w'

/-- There is no such slot. -/
theorem World.Shows.makes_nothing (h : w₀.Shows a hook f led w) {v : Visit α}
    (visit : Routine.visit (V := V) (M := M) a led.clock led.links v =
      return (led.clock, led.links, []))
    (after : led.after f v = led) : host.Makes w₀ a hook f led w v := by
  refine ⟨[], w, ?_, ?_, ?_⟩
  · rw [visit, after]
    exact yields_done.mpr ⟨rfl, rfl⟩
  · rw [after, List.append_nil]
  · rw [after]
    exact h

theorem World.Shows.makes (h : w₀.Shows a hook f led w) (pure : host.SamplesBy w₀ a hook f)
    (settles : host.Settles hook) (installed : (w₀.scene.animation a).hook = some hook)
    (proper : led.Proper) (v : Visit α) : host.Makes w₀ a hook f led w v := by
  cases v with
  | read k =>
      cases hs : led.stories[k]? with
      | none =>
          exact h.makes_nothing (by simp only [Routine.visit, Ledger.links_getElem?, hs]; rfl)
            (by simp only [Ledger.after, hs])
      | some s =>
          obtain ⟨w', hread, hpins⟩ := h.read pure settles installed hs
          have hlink := s.readAt_link led.clock.time
          refine ⟨[s.report f led.clock.time], w', ?_, ?_, ?_⟩
          · simp only [Routine.visit, Ledger.links_getElem?, hs, Option.map_some, Ledger.after]
            refine yields_call.mpr ⟨_, _, hread, yields_done.mpr ⟨?_, rfl⟩⟩
            simp only [Ledger.links, Ledger.links_set hs hlink]
          · simp only [Ledger.after, hs]
          · simp only [Ledger.after, hs]
            exact h.change proper hs hlink hpins _
  | evaluate =>
      obtain ⟨es, hsample, hes⟩ := pure w none led.clock h.kin
      refine ⟨[(f led.clock.time).get], w.record es, ?_, rfl, ?_⟩
      · exact yields_call.mpr ⟨_, _, Host.answers_iff.mpr hsample, yields_done.mpr ⟨rfl, rfl⟩⟩
      · refine ⟨⟨h.kin.animations, h.kin.memory, h.kin.links⟩, h.size, h.found, ?_⟩
        rw [World.record, Array.toList_append, runsOf_append, runsOf_eq_nil hes, h.runs,
          List.append_nil]
        rfl
  | move clock =>
      exact ⟨[], w, yields_done.mpr ⟨rfl, rfl⟩, (List.append_nil _).symm,
        h.kin, h.size, h.found, h.runs⟩
  | set k pin =>
      cases hs : led.stories[k]? with
      | none =>
          exact h.makes_nothing (by simp only [Routine.visit, Ledger.links_getElem?, hs]; rfl)
            (by simp only [Ledger.after, hs])
      | some s =>
          have hset : host.Answers (.setPin s.link pin) w () (w.setPin s.link pin) := by
            rw [answers_setPin, h.found k s hs]
            rfl
          have hlink := s.repin_link pin
          have hpins : w.Pins a hook s.link ((s.repin pin).pin f) [] (w.setPin s.link pin) := by
            rw [Story.pin_repin]
            exact .setPin (h.found k s hs) pin
          refine ⟨[], w.setPin s.link pin, ?_, ?_, ?_⟩
          · simp only [Routine.visit, Ledger.links_getElem?, hs, Option.map_some, Ledger.after]
            refine yields_call.mpr ⟨_, _, hset, yields_done.mpr ⟨?_, rfl⟩⟩
            simp only [Ledger.links, Ledger.links_set hs hlink]
          · simp only [Ledger.after, hs, List.append_nil]
          · simp only [Ledger.after, hs]
            simpa only [List.append_nil] using h.change proper hs hlink hpins led.reports
  | clone k =>
      cases hs : led.stories[k]? with
      | none =>
          exact h.makes_nothing (by simp only [Routine.visit, Ledger.links_getElem?, hs]; rfl)
            (by simp only [Ledger.after, hs])
      | some s =>
          refine ⟨[], { w with scene := (w.scene.cloneSlot (.link s.link)).2 }, ?_, ?_, ?_⟩
          · simp only [Routine.visit, Ledger.links_getElem?, hs, Option.map_some, Ledger.after]
            refine yields_call.mpr ⟨.link led.next, _, ?_, yields_done.mpr ⟨?_, rfl⟩⟩
            · exact answers_cloneSlot.mpr ⟨congrArg Slot.link h.size.symm, rfl⟩
            · rw [Ledger.links, Ledger.links, List.map_append]
              rfl
          · simp only [Ledger.after, hs, List.append_nil]
          · simp only [Ledger.after, hs]
            exact h.clone hs

theorem World.Shows.visitAll (h : w₀.Shows a hook f led w) (pure : host.SamplesBy w₀ a hook f)
    (settles : host.Settles hook) (installed : (w₀.scene.animation a).hook = some hook)
    (proper : led.Proper) (visits : List (Visit α)) :
    ∃ reports w', (Routine.visitAll a led.clock led.links visits).perform.Yields host w
        reports w' ∧
      (visits.foldl (Ledger.after f) led).reports = led.reports ++ reports ∧
      w₀.Shows a hook f (visits.foldl (Ledger.after f) led) w' := by
  induction visits generalizing led w with
  | nil => exact ⟨[], w, yields_done.mpr ⟨rfl, rfl⟩, (List.append_nil _).symm, h⟩
  | cons v rest ih =>
      obtain ⟨reports, w₁, hvisit, hreports, h₁⟩ := h.makes pure settles installed proper v
      obtain ⟨later, w', hrest, hlater, h'⟩ := ih h₁ (proper.after f v)
      refine ⟨reports ++ later, w', ?_, ?_, h'⟩
      · refine (Routine.perform_bind _ _).symm ▸ hvisit.bind ?_
        exact (Routine.perform_bind _ _).symm ▸ hrest.bind (yields_done.mpr ⟨rfl, rfl⟩)
      · rw [List.foldl_cons, hlater, hreports, List.append_assoc]

/-! ## Slots settle apart -/

omit [DecidableEq V.Hook] [Scalar α] in
theorem Ledger.proper_start {sc : Scene α V} {a : AnimationId} {links : List LinkId}
    (clock : Clock α) (distinct : links.Nodup)
    (idle : ∀ l ∈ links, ∃ pin, sc.links[l]? = some { target := a, pin := pin }) :
    (Ledger.start sc links clock).Proper := by
  have hlinks : (Ledger.start sc links clock).links = links := by
    simp [Ledger.start, Ledger.links, Function.comp_def]
  refine ⟨by rwa [hlinks], fun l hl => ?_, by simp [Ledger.start]⟩
  obtain ⟨pin, hpin⟩ := idle l (hlinks ▸ hl)
  exact (Array.getElem?_eq_some_iff.mp hpin).1

omit [Scalar α] in
theorem World.shows_start {links : List LinkId} (clock : Clock α)
    (idle : ∀ l ∈ links, ∃ pin, w.scene.links[l]? = some { target := a, pin := pin }) :
    w.Shows a hook f (.start w.scene links clock) w where
  kin := .refl w a
  size := rfl
  found k s hs := by
    obtain ⟨l, hl, rfl⟩ := List.mem_map.mp (List.mem_of_getElem? hs)
    obtain ⟨pin, hpin⟩ := idle l hl
    simp [Story.pin, Scene.link, hpin]
  runs := (List.append_nil _).symm

/-- **Slots settle apart.** An animation is a function of the clock time and has a hook that settles
its slot on the end value and returns it. It is read through any slots, evaluated on its own, and the
clock is moved forward and back; slots are cloned, and settled and unsettled by hand. All of this
comes to an end, and what is reported, which pins there are and for which slots the hook has run, in
this order, is told by the stories of the slots.

* A slot is pinned if its story began with a pin or has a read at which the function was over. It
  reports the first such end value from this read on, and the function before.
* A story begins with the pin that a slot has, or is given by hand, or with that of the original.
* From any point on, as long as a slot is not settled or unsettled by hand, it stays the same slot
  with the same pin, and the hook runs for it once, with the end value, if it becomes pinned, and
  otherwise not at all. The hook runs for no other link. -/
theorem slots_settle_apart (pure : host.SamplesBy w a hook f) (settles : host.Settles hook)
    (installed : (w.scene.animation a).hook = some hook) {links : List LinkId}
    (distinct : links.Nodup)
    (idle : ∀ l ∈ links, ∃ pin, w.scene.links[l]? = some { target := a, pin := pin })
    (clock : Clock α) (visits : List (Visit α)) :
    let begun := Ledger.start w.scene links clock
    let led := visits.foldl (Ledger.after f) begun
    (∃ w' depth, (∀ n, depth ≤ n →
        host.run n (Routine.visitAll a clock links visits) w = some (led.reports, w')) ∧
      (∀ s ∈ led.stories, w'.scene.links[s.link]? = some { target := a, pin := s.pin f }) ∧
      runsOf hook w'.journal.toList = runsOf hook w.journal.toList ++ led.runs) ∧
    (∀ r ∈ led.runs, r.1 ∈ led.links) ∧
    ∀ before after, visits = before ++ after → ∀ k s,
      (before.foldl (Ledger.after f) begun).stories[k]? = some s →
      (∀ pin, Visit.set k pin ∉ after) →
      ∃ s', Ledger.Continues f k (before.foldl (Ledger.after f) begun) s led s' := by
  intro begun led
  have proper : begun.Proper := Ledger.proper_start clock distinct idle
  have hlinks : begun.links = links := by simp [begun, Ledger.start, Ledger.links, Function.comp_def]
  refine ⟨?_, (proper.foldl f visits).ran, ?_⟩
  · obtain ⟨reports, w', hyields, hreports, shows⟩ :=
      (World.shows_start clock idle).visitAll pure settles installed proper visits
    obtain rfl : reports = led.reports := (hreports.trans (List.nil_append _)).symm
    rw [hlinks] at hyields
    obtain ⟨depth, hdepth⟩ := hyields
    refine ⟨w', depth, fun n hn => run_respond_mono hn hdepth, fun s hs => ?_, shows.runs⟩
    obtain ⟨k, hk⟩ := List.mem_iff_getElem?.mp hs
    exact shows.found k s hk
  · rintro before after rfl k s hs unset
    have hfold : led = after.foldl (Ledger.after f) (before.foldl (Ledger.after f) begun) :=
      List.foldl_append
    rw [hfold]
    exact Ledger.Continues.foldl (proper.foldl f before) hs unset

omit [DecidableEq V.Hook] in
/-- A strategy of the host that goes by the clock time. -/
theorem samplesBy_custom {s : V.Strategy} (hs : (w.scene.animation a).strategy = .custom s)
    (hf : ∀ clock : Clock α, host.strategy s clock = f clock.time) : host.SamplesBy w a hook f := by
  intro w' through clock kin
  have hstrategy : (w'.scene.animation a).strategy = .custom s := by
    rw [← hs, Scene.animation, Scene.animation, kin.animations]
  refine ⟨[.sampleBegan a through, .sampleFinished a through (f clock.time)], ?_, by simp⟩
  rw [yields_sample_iff, hstrategy]
  refine ⟨_, yields_done.mpr ⟨(hf clock).symm, rfl⟩, ?_⟩
  simp [World.note_eq_record]

end Visits

namespace Landing

/-! An animation that follows the clock up to two, and two slots. -/

def vocabulary : Vocabulary := ⟨Empty, Unit, Unit⟩

instance : DecidableEq vocabulary.Hook := inferInstanceAs (DecidableEq Unit)

def follow (time : Int) : Sample Int := if time < 2 then .value time else .ended 2

def host : Host Int vocabulary Unit where
  source := Empty.elim
  hook _ l v := do
    Routine.ask (.setPin l (some v))
    return v
  strategy _ clock := follow clock.time

def world : World Int vocabulary Unit where
  scene :=
    { animations := #[{ strategy := .custom (), hook := some () }]
      links := #[{ target := 0 }, { target := 0 }] }
  memory := ()

/-- The first slot lands, and time goes back. It is cloned and then unsettled. -/
def visits : List (Visit Int) :=
  [.read 0, .move ⟨5, 0⟩, .read 0, .move ⟨1, 0⟩, .read 0, .read 1, .clone 0, .set 0 none,
    .read 0, .read 2, .evaluate]

theorem lands_once : ∃ w' depth, (∀ n, depth ≤ n →
      host.run n (Routine.visitAll 0 .new [0, 1] visits) world = some ([0, 2, 2, 1, 1, 2, 1], w')) ∧
    runsOf () w'.journal.toList = [(0, 2)] := by
  have sampled : host.SamplesBy world 0 () follow := samplesBy_custom rfl fun _ => rfl
  have told := slots_settle_apart sampled (fun _ _ => rfl) rfl (show [0, 1].Nodup by decide)
    (by simp [world]) .new visits
  obtain ⟨w', depth, hrun, -, hruns⟩ := told.1
  exact ⟨w', depth, hrun, hruns⟩

end Landing

end Inbetween
