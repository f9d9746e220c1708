import Inbetween.Proofs.Separation
import Mathlib.Data.List.Cycle

/-!
# Settling

What comes of a pin that is set by hand. A reader that does not come to the link cannot tell. The
reads of the link itself are over at once. And no read goes on behind the pin, so it takes every
cycle apart on which the link is.
-/

namespace Inbetween

open Act

variable {α : Type} {V : Vocabulary} {M : Type} {β : Type}

/-! ## Worlds that differ in a pin -/

/-- But for the journal, the second world is the first one with the pin of a link set. -/
structure World.Repinned (s : LinkId) (pin : Option α) (w₁ w₂ : World α V M) : Prop where
  scene : w₂.scene = w₁.scene.modifyLink s fun link => { link with pin := pin }
  memory : w₂.memory = w₁.memory

/-- The results of runs that begin in two worlds differ in nothing but the pin of a link, and the
same events have been added to the journals. -/
structure World.Agree (s : LinkId) (pin : Option α) (w₁ w₂ : World α V M)
    (r₁ r₂ : β × World α V M) : Prop where
  value : r₁.1 = r₂.1
  repinned : r₁.2.Repinned s pin r₂.2
  events : ∃ es, r₁.2.journal.toList = w₁.journal.toList ++ es ∧
    r₂.2.journal.toList = w₂.journal.toList ++ es

namespace World

/-- The world with another pin, and after other events. -/
def alter (s : LinkId) (f : Option α → Option α) (j : Array (Event α V)) (w : World α V M) :
    World α V M :=
  { w.modifyLink s fun link => { link with pin := f link.pin } with journal := j ++ w.journal }

/-- Nothing has been taken down in the world. -/
def blank (w : World α V M) : World α V M := { w with journal := #[] }

theorem unnoticed_alter (s : LinkId) (f : Option α → Option α) (j : Array (Event α V)) :
    Unnoticed (alter s f j : World α V M → World α V M) (· = s) where
  note w e := by simp [alter, note, modifyLink]
  modifyAnimation _ _ _ := rfl
  raise w l b := by
    simp only [alter, modifyLink, Scene.modifyLink]
    congr 2
    refine Array.ext_getElem? fun m => ?_
    simp only [Array.getElem?_modify]
    split <;> split <;> simp [Option.map_map, Function.comp_def]
  animation _ _ := rfl
  memory _ := rfl
  link w l hl := by
    show (w.scene.links.modify s _)[l]? = _
    rw [Array.getElem?_modify, if_neg (Ne.symm hl)]

theorem unnoticed_id : Unnoticed (id : World α V M → World α V M) fun _ => False :=
  ⟨fun _ _ => rfl, fun _ _ _ => rfl, fun _ _ _ => rfl, fun _ _ => rfl, fun _ => rfl,
    fun _ _ _ => rfl⟩

theorem alter_id (s : LinkId) (j : Array (Event α V)) (w : World α V M) :
    w.alter s id j = { w with journal := j ++ w.journal } := by
  have hlinks : (w.scene.links.modify s fun link => { link with pin := id link.pin }) =
      w.scene.links := by
    refine Array.ext_getElem? fun m => ?_
    rw [Array.getElem?_modify]
    split
    · exact congrFun Option.map_id _
    · rfl
  simp only [alter, modifyLink, Scene.modifyLink, hlinks]

theorem alter_self (s : LinkId) (w : World α V M) : w.blank.alter s id w.journal = w := by
  simp [alter_id, blank]

variable {s : LinkId} {pin : Option α} {w w' w₁ w₂ : World α V M}

theorem Repinned.alter_eq (h : w₁.Repinned s pin w₂) :
    w₁.blank.alter s (fun _ => pin) w₂.journal = w₂ := by
  obtain ⟨scene, memory, journal⟩ := w₂
  obtain rfl := h.scene
  obtain rfl := h.memory
  simp [alter, blank, modifyLink]

/-- In an idle scene without rates, nothing is left of evaluations but their events. -/
theorem Passes.eq_record {reach : LinkId → Prop} {es : List (Event α V)}
    (h : w.Passes w.scene reach es w') (idle : w.scene.Idle)
    (noRate : ∀ a source last current, (w.scene.animation a).strategy ≠ .rate source last current) :
    w' = w.record es := by
  have hjournal : w'.journal = w.journal ++ es.toArray := Array.ext' (by simp [h.journal])
  have hlinks : w'.scene.links = w.scene.links := by
    refine Array.ext_getElem? fun l => ?_
    have hl := h.link l
    have hidle : (w'.scene.link l).busy = (w.scene.link l).busy := by
      rw [idle l]
      exact Bool.eq_false_iff.mpr fun hbusy => Bool.eq_false_iff.mp (idle l) (h.busy l hbusy)
    rw [Scene.link, Scene.link] at hidle
    cases hw : w.scene.links[l]? with
    | none =>
        rw [hw] at hl
        exact Option.map_eq_none_iff.mp hl
    | some k =>
        rw [hw] at hl
        obtain ⟨⟨target, busy, pin⟩, hk, heq⟩ := Option.map_eq_some_iff.mp hl
        obtain ⟨rfl, rfl⟩ := Prod.mk.inj heq
        rw [hw, hk] at hidle
        obtain rfl : busy = k.busy := hidle
        exact hk
  have hanimations := h.still noRate
  have hmemory := h.memory
  obtain ⟨⟨animations, links⟩, memory, journal⟩ := w'
  obtain rfl : animations = _ := hanimations
  obtain rfl : links = _ := hlinks
  obtain rfl : memory = _ := hmemory
  obtain rfl : journal = _ := hjournal
  rfl

theorem resembles_refl (w : World α V M) : w.Resembles w.scene w.memory :=
  ⟨rfl, fun _ => .same _, fun _ => rfl, fun _ => rfl⟩

end World

/-! ## Routines that evaluate -/

/-- The routine does nothing but evaluate, and comes to nothing that leads to the link. -/
def Routine.StaysAway (sc : Scene α V) (s : LinkId) (r : Routine α V M β) : Prop :=
  r.perform.MakesOnly fun c => c.isEvaluation = true ∧ ∀ path, ¬ c.Leads sc s path

theorem Act.Evaluates.perform {sc : Scene α V} {memory : M} {away : LinkId → Prop}
    {τ : World α V M → World α V M} {r : Routine α V M β}
    (h : r.perform.MakesOnly fun c => c.isEvaluation = true ∧
      ∀ l, away l → ∀ path, ¬ c.Leads sc l path) :
    r.perform.Evaluates sc memory away τ fun _ => True := by
  induction r with
  | done b => exact .done b
  | call c next ih =>
      have hask : (Act.ask c : Act α V M c.Answer).Evaluates sc memory away τ fun _ => True :=
        (Evaluates.ask h.1.1 h.1.2).mono fun _ _ => trivial
      exact hask.bind fun a => ih a (h.2 a)

section Settling

variable [Scalar α] {host : Host α V M} {code : Computation α V} {w w' w₁ w₂ : World α V M}
  {s : LinkId} {pin : Option α}

/-- Some things are read and evaluated, one after the other, and the world is left like this. -/
def Host.Evaluations (host : Host α V M) (w w' : World α V M) : Prop :=
  ∃ r : Routine α V M Unit, (r.perform.MakesOnly fun c => c.isEvaluation = true) ∧
    r.perform.Yields host w () w'

theorem Host.Answers.evaluations {c : Call α V M} {a : c.Answer} (h : host.Answers c w a w')
    (hc : c.isEvaluation = true) : host.Evaluations w w' := by
  refine ⟨.call c fun _ => .done (), ⟨hc, fun _ => trivial⟩, ?_⟩
  exact yields_call.mpr ⟨a, w', h, yields_done.mpr ⟨rfl, rfl⟩⟩

theorem Host.Evaluations.passes (computes : host.Computes w.memory code)
    (h : host.Evaluations w w') : ∃ es, w.Passes w.scene (fun _ => True) es w' := by
  obtain ⟨r, honly, n, hrun⟩ := h
  have hnowhere : r.perform.MakesOnly fun c => c.isEvaluation = true ∧
      ∀ l, False → ∀ path, ¬ c.Leads w.scene l path := honly.mono fun c hc => ⟨hc, nofun⟩
  have hevaluates : r.perform.Evaluates w.scene w.memory (fun _ => False) id fun _ => True :=
    Act.Evaluates.perform hnowhere
  have hsound : (evaluationTerms w.scene w.memory fun _ => False).Sound id host :=
    evaluationTerms_sound World.unnoticed_id computes
  exact ((hevaluates w w.resembles_refl).run (hsound.respond n)).2 () w' hrun

/-- A routine that stays away from a link is run in the same way whatever the link is pinned to. -/
theorem Host.run_alter (computes : host.Computes w.memory code) {r : Routine α V M β}
    (away : r.StaysAway w.scene s) (f : Option α → Option α) (j : Array (Event α V)) (n : Nat) :
    host.run n r (w.alter s f j) = (host.run n r w).map (Prod.map id (World.alter s f j)) := by
  have haway : r.perform.MakesOnly fun c => c.isEvaluation = true ∧
      ∀ l, l = s → ∀ path, ¬ c.Leads w.scene l path :=
    away.mono fun c ⟨hc, hpath⟩ => ⟨hc, fun l hl => hl ▸ hpath⟩
  have hsound : (evaluationTerms w.scene w.memory (· = s)).Sound (World.alter s f j) host :=
    evaluationTerms_sound (World.unnoticed_alter s f j) computes
  exact ((Act.Evaluates.perform haway w w.resembles_refl).run (hsound.respond n)).1

theorem World.Repinned.agree (h : w₁.Repinned s pin w₂) (computes : host.Computes w₁.memory code)
    {r : Routine α V M β} (away : r.StaysAway w₁.scene s) (n : Nat) :
    Option.Rel (World.Agree s pin w₁ w₂) (host.run n r w₁) (host.run n r w₂) := by
  -- Both runs are alterations of one run, in the world with nothing taken down.
  have h₁ := Host.run_alter (w := w₁.blank) computes away id w₁.journal n
  have h₂ := Host.run_alter (w := w₁.blank) computes away (fun _ => pin) w₂.journal n
  rw [World.alter_self] at h₁
  rw [h.alter_eq] at h₂
  rw [h₁, h₂]
  cases host.run n r w₁.blank with
  | none => exact .none
  | some p =>
      refine .some ⟨rfl, ⟨?_, rfl⟩, p.2.journal.toList, ?_, ?_⟩
      · rw [Prod.map_snd, Prod.map_snd, World.alter_id]
        rfl
      · simp [World.alter]
      · simp [World.alter]

/-! ## Cycles -/

namespace Scene

omit [Scalar α]

/-- The path leads from the animation to a slot that reads the link, through no other link. -/
inductive Mentions (sc : Scene α V) (m : LinkId) : AnimationId → List Part → Prop
  | slot {a : AnimationId} {part : Part} :
      (sc.animation a).strategy.slotAt? part = some (.link m) → sc.Mentions m a [part]
  | segment {a b : AnimationId} {position : Nat} {path : List Part} :
      (sc.animation a).strategy.segmentAt? position = some b → sc.Mentions m b path →
      sc.Mentions m a (.segment position :: path)

/-- The link is unsettled, and its animation mentions the other one. -/
def Refers (sc : Scene α V) (l m : LinkId) : Prop :=
  ∃ here path, sc.Unsettled l here ∧ sc.Mentions m here.target path

variable {sc : Scene α V} {l m s : LinkId}

/-- The links follow one after the other, each of them referring to the next, from the first link to
the last one, and none of them comes twice. -/
structure Walk (sc : Scene α V) (first last : LinkId) (links : List LinkId) : Prop where
  head : links.head? = some first
  getLast : links.getLast? = some last
  chain : List.IsChain sc.Refers links
  nodup : links.Nodup

/-- A walk may begin at a link that refers to its first link. It is cut short if it comes back. -/
theorem Walk.cons {links : List LinkId} (h : sc.Walk m s links) (hl : sc.Refers l m) :
    ∃ links, sc.Walk l s links := by
  by_cases hmem : l ∈ links
  · obtain ⟨before, after, rfl⟩ := List.append_of_mem hmem
    refine ⟨l :: after, rfl, ?_, h.chain.right_of_append, h.nodup.of_append_right⟩
    rw [← h.getLast, List.getLast?_append_cons]
  · obtain ⟨rest, rfl⟩ : ∃ rest, links = m :: rest := List.head?_eq_some_iff.mp h.head
    exact ⟨l :: m :: rest, rfl, h.getLast ▸ List.getLast?_cons_cons,
      List.isChain_cons_cons.mpr ⟨hl, h.chain⟩, List.nodup_cons.mpr ⟨hmem, h.nodup⟩⟩

mutual

theorem SlotLeads.walk : ∀ {slot : Slot α V} {path : List Part}, sc.SlotLeads m slot path →
    ∃ l links, slot = .link l ∧ sc.Walk l m links
  | _, _, .here => ⟨m, [m], rfl, rfl, rfl, .singleton m, List.nodup_singleton m⟩
  | _, _, .through _ hl hpath => by
      obtain ⟨k, links, ⟨path, hk⟩, hlinks⟩ := hpath.walk
      obtain ⟨links, hlinks⟩ := hlinks.cons ⟨_, path, hl, hk⟩
      exact ⟨_, links, rfl, hlinks⟩

theorem AnimationLeads.walk : ∀ {a : AnimationId} {path : List Part}, sc.AnimationLeads m a path →
    ∃ l links, (∃ path, sc.Mentions l a path) ∧ sc.Walk l m links
  | _, _, .slot hslot hpath => by
      obtain ⟨l, links, rfl, hlinks⟩ := hpath.walk
      exact ⟨l, links, ⟨_, .slot hslot⟩, hlinks⟩
  | _, _, .segment hsegment hpath => by
      obtain ⟨l, links, ⟨path, hl⟩, hlinks⟩ := hpath.walk
      exact ⟨l, links, ⟨_, .segment hsegment hl⟩, hlinks⟩

end

/-- A link that returns to itself is on a simple cycle. -/
theorem Returns.cycle {path : List Part} (h : sc.Returns m path) :
    ∃ cycle : Cycle LinkId, cycle.Nodup ∧ cycle.Chain sc.Refers ∧ m ∈ cycle := by
  obtain ⟨here, hhere, hpath⟩ := h
  obtain ⟨l, links, ⟨path, hl⟩, hlinks⟩ := hpath.walk
  obtain ⟨rest, rfl⟩ := List.getLast?_eq_some_iff.mp hlinks.getLast
  have hrotated : ((rest ++ [m] : List LinkId) : Cycle LinkId) = ↑(m :: rest) :=
    Cycle.coe_eq_coe.mpr List.isRotated_append
  refine ⟨↑(m :: rest), hrotated ▸ hlinks.nodup, ?_, Cycle.mem_coe_iff.mpr List.mem_cons_self⟩
  rw [Cycle.chain_coe_cons, List.isChain_cons, hlinks.head]
  refine ⟨?_, hlinks.chain⟩
  rintro k ⟨⟩
  exact ⟨here, path, hhere, hl⟩

theorem refers_of_mem {cycle : Cycle LinkId} (chain : cycle.Chain sc.Refers) (hl : l ∈ cycle) :
    ∃ m, sc.Refers l m := by
  obtain ⟨links, rfl⟩ : ∃ links : List LinkId, ↑links = cycle := Quotient.exists_rep cycle
  obtain ⟨before, after, rfl⟩ := List.append_of_mem (Cycle.mem_coe_iff.mp hl)
  have hrotated : ((before ++ l :: after : List LinkId) : Cycle LinkId) =
      ↑(l :: (after ++ before)) := Cycle.coe_eq_coe.mpr List.isRotated_append
  rw [hrotated, Cycle.chain_coe_cons, List.isChain_cons] at chain
  obtain ⟨m, hm⟩ : ∃ m, ((after ++ before) ++ [l]).head? = some m :=
    Option.isSome_iff_exists.mp (by simp)
  exact ⟨m, chain.1 m hm⟩

end Scene

namespace World.Repinned

omit [Scalar α]

theorem idle (h : w₁.Repinned s pin w₂) (hidle : w₁.scene.Idle) : w₂.scene.Idle := by
  intro l
  rw [h.scene, Scene.link_modifyLink]
  split <;> exact hidle l

variable {v : α}

theorem not_unsettled (h : w₁.Repinned s (some v) w₂) (here : Link α) :
    ¬ w₂.scene.Unsettled s here := by
  rintro ⟨found, hpin⟩
  rw [h.scene, Scene.modifyLink, Array.getElem?_modify, if_pos rfl] at found
  obtain ⟨k, -, rfl⟩ := Option.map_eq_some_iff.mp found
  cases hpin

theorem unsettled (h : w₁.Repinned s (some v) w₂) {l : LinkId} {here : Link α}
    (hl : w₂.scene.Unsettled l here) : w₁.scene.Unsettled l here := by
  have hne : s ≠ l := fun heq => h.not_unsettled here (heq ▸ hl)
  obtain ⟨found, hpin⟩ := hl
  rw [h.scene, Scene.modifyLink, Array.getElem?_modify, if_neg hne] at found
  exact ⟨found, hpin⟩

theorem mentions (h : w₁.Repinned s pin w₂) {m : LinkId} {a : AnimationId} {path : List Part}
    (hpath : w₂.scene.Mentions m a path) : w₁.scene.Mentions m a path := by
  rw [h.scene] at hpath
  induction hpath with
  | slot hslot => exact .slot hslot
  | segment hsegment _ ih => exact .segment hsegment ih

theorem refers (h : w₁.Repinned s (some v) w₂) (l m : LinkId) (hl : w₂.scene.Refers l m) :
    w₁.scene.Refers l m := by
  obtain ⟨here, path, hhere, hpath⟩ := hl
  exact ⟨here, path, h.unsettled hhere, h.mentions hpath⟩

/-- A link that returns to itself although the slot is settled is on a simple cycle on which the
slot is not. -/
theorem cycle (h : w₁.Repinned s (some v) w₂) {m : LinkId} {path : List Part}
    (hm : w₂.scene.Returns m path) :
    ∃ cycle : Cycle LinkId, cycle.Nodup ∧ cycle.Chain w₁.scene.Refers ∧ m ∈ cycle ∧ s ∉ cycle := by
  obtain ⟨cycle, nodup, chain, hm⟩ := hm.cycle
  refine ⟨cycle, nodup, chain.imp h.refers, hm, fun hs => ?_⟩
  obtain ⟨_, here, _, hhere, _⟩ := Scene.refers_of_mem chain hs
  exact h.not_unsettled here hhere

end World.Repinned

/-! ## Settling -/

/-- How an event changes the reads that are under way, innermost first. -/
def Event.openReads (links : List LinkId) : Event α V → List LinkId
  | .readBegan l => l :: links
  | .readFinished _ _ => links.tail
  | _ => links

/-- The links that are being read at the end of the events, innermost first. -/
def openReads (es : List (Event α V)) : List LinkId := es.foldl Event.openReads []

/-- The cycle that is closed by a read of a link that is being read already: the link, and the links
that are being read inside of it. -/
def closedCycle (m : LinkId) (before : List (Event α V)) : List LinkId :=
  m :: ((openReads before).takeWhile (· ≠ m)).reverse

omit [Scalar α] in
theorem Event.mem_openReads {links : List LinkId} {e : Event α V} {l : LinkId}
    (h : l ∈ e.openReads links) : l ∈ links ∨ e = .readBegan l := by
  cases e with
  | readBegan m =>
      rcases List.mem_cons.mp h with rfl | h
      · exact .inr rfl
      · exact .inl h
  | readFinished m v => exact .inl (List.mem_of_mem_tail h)
  | _ => exact .inl h

omit [Scalar α] in
theorem readBegan_of_mem_openReads {l : LinkId} {es : List (Event α V)} (h : l ∈ openReads es) :
    .readBegan l ∈ es := by
  induction es using List.reverseRecOn with
  | nil => cases h
  | append_singleton es e ih =>
      rw [openReads, List.foldl_append] at h
      rcases Event.mem_openReads h with h | rfl
      · exact List.mem_append_left _ (ih h)
      · exact List.mem_append_right _ List.mem_cons_self

theorem World.repinned_of_answers (set : host.Answers (.setPin s pin) w () w₂) :
    w.Repinned s pin w₂ := by
  rw [answers_setPin] at set
  subst set
  split
  · exact ⟨rfl, rfl⟩
  · rename_i hnone
    -- There is no such link.
    have hlinks : (w.scene.links.modify s fun link => { link with pin := pin }) =
        w.scene.links := by
      refine Array.ext_getElem? fun l => ?_
      rw [Array.getElem?_modify]
      split
      · rename_i hl
        rw [← hl, Option.not_isSome_iff_eq_none.mp hnone]
        rfl
      · rfl
    exact ⟨by rw [Scene.modifyLink, hlinks], rfl⟩

/-- **Settling stays at its slot.** Host code is pure, and a slot `s` is settled or unsettled by hand.

* A slot `t` from which no path leads to `s` is read as if nothing had been done, as long as nothing
  that leads to `s` has been read before. The read comes to an end at the same depths, with the same
  value and the same events in the same order, among them the reads of sources, the hook runs and
  the warnings. All else that it leaves is the same, too: what rates remember, the pins but for that
  of `s`, and the guards. If there are no rates, this is so whatever has been read and evaluated
  before, even if it was not the same.
* Once `s` is settled, a read of it returns the pin at every clock and leaves the world as it is.
* Once `s` is settled, no warning closes a cycle on which `s` is. A link about which there still is a
  warning is on a simple cycle without `s`. -/
theorem settling_stays_at_slot (host : Host α V M) {code : Computation α V}
    (computes : host.Computes w.memory code) (set : host.Answers (.setPin s pin) w () w₂) :
    (∀ t, (∀ path, ¬ w.scene.SlotLeads s t path) → ∀ clock,
      (∀ earlier : Routine α V M Unit, earlier.StaysAway w.scene s → ∀ n,
        Option.Rel (World.Agree s pin w w₂)
          (host.run n (earlier.bind fun _ => .ask (.read t clock)) w)
          (host.run n (earlier.bind fun _ => .ask (.read t clock)) w₂)) ∧
      (w.scene.Idle →
        (∀ a source last current, (w.scene.animation a).strategy ≠ .rate source last current) →
        ∀ w' w₂', host.Evaluations w w' → host.Evaluations w₂ w₂' → ∀ n,
          Option.Rel (World.Agree s pin w' w₂') (host.run n (.ask (.read t clock)) w')
            (host.run n (.ask (.read t clock)) w₂'))) ∧
    ∀ v, pin = some v → ∀ w', host.Evaluations w₂ w' →
      (w.scene.links[s]?.isSome → ∀ clock n,
        respond host (n + 1) (.read (.link s) clock) w' = some (v, w')) ∧
      (w.scene.Idle → ∃ es, w'.journal.toList = w₂.journal.toList ++ es ∧
        ∀ before m after, es = before ++ .cycleMet m :: after →
          s ∉ closedCycle m before ∧
          ∃ cycle : Cycle LinkId, cycle.Nodup ∧ cycle.Chain w.scene.Refers ∧
            m ∈ cycle ∧ s ∉ cycle) := by
  have repinned := World.repinned_of_answers set
  have computes₂ : host.Computes w₂.memory code := repinned.memory ▸ computes
  refine ⟨fun t ht clock => ⟨fun earlier hearlier n => ?_, fun idle noRate w' w₂' h h₂ n => ?_⟩,
    ?_⟩
  · have haway : (earlier.bind fun _ => .ask (.read t clock)).StaysAway w.scene s := by
      rw [Routine.StaysAway, Routine.perform_bind]
      exact hearlier.bind fun _ => ⟨⟨rfl, ht⟩, fun _ => trivial⟩
    exact repinned.agree computes haway n
  · obtain ⟨es, hes⟩ := h.passes computes
    obtain ⟨es₂, hes₂⟩ := h₂.passes computes₂
    have noRate₂ : ∀ a source last current,
        (w₂.scene.animation a).strategy ≠ .rate source last current := by
      rw [repinned.scene]
      exact noRate
    obtain rfl := hes.eq_record idle noRate
    obtain rfl := hes₂.eq_record (repinned.idle idle) noRate₂
    have haway : (Routine.ask (.read t clock) : Routine α V M α).StaysAway w.scene s :=
      ⟨⟨rfl, ht⟩, fun _ => trivial⟩
    have hrecorded : (w.record es).Repinned s pin (w₂.record es₂) :=
      ⟨repinned.scene, repinned.memory⟩
    exact hrecorded.agree computes haway n
  · rintro v rfl w' hw'
    obtain ⟨es, hes⟩ := hw'.passes computes₂
    refine ⟨fun hs clock n => ?_, fun idle => ⟨es, hes.journal, fun before m after heq => ?_⟩⟩
    · obtain ⟨k, hk⟩ := Option.isSome_iff_exists.mp hs
      have hset : w₂.scene.links[s]? = some { k with pin := some v } := by
        rw [repinned.scene, Scene.modifyLink, Array.getElem?_modify, if_pos rfl, hk]
        rfl
      obtain ⟨k', hk', -, hpin⟩ := Scene.link_of_map_eq (hes.link s) hset
      show (Evaluate.readLink host s clock).run (respond host n) w' = _
      simp [Evaluate.readLink, Act.run, hk', hpin]
    · have hm : .cycleMet m ∈ es := by simp [heq]
      obtain ⟨path, hpath⟩ : ∃ path, w₂.scene.Returns m path := by
        apply (hes.warned m hm).resolve_left
        rintro ⟨-, hbusy⟩
        exact Bool.false_ne_true ((repinned.idle idle m).symm.trans hbusy)
      refine ⟨fun hs => ?_, repinned.cycle hpath⟩
      rcases List.mem_cons.mp hs with rfl | hs
      · obtain ⟨here, hhere, -⟩ := hpath
        exact repinned.not_unsettled here hhere
      · have hopen : s ∈ openReads before :=
          (List.takeWhile_prefix _).subset (List.mem_reverse.mp hs)
        have hbegan : .readBegan s ∈ es :=
          heq ▸ List.mem_append_left _ (readBegan_of_mem_openReads hopen)
        obtain ⟨here, hhere⟩ := hes.began s hbegan
        exact repinned.not_unsettled here hhere

end Settling

namespace Eddy

/-! A link to an interpolation that reads the link for its time ratio, and a link beside it. -/

def vocabulary : Vocabulary := ⟨Empty, Empty, Empty⟩

def host : Host Int vocabulary Unit where
  source := Empty.elim
  hook := Empty.elim
  strategy := Empty.elim

def itself : Interpolation Int vocabulary where
  start := .constant 10
  finish := .constant 20
  time := .slot (.link 0)
  extend := .extrapolate

def world : World Int vocabulary Unit where
  scene :=
    { animations :=
        #[{ strategy := .interpolate itself },
          { strategy := .wrap (.constant 0) (.constant 10) (.constant 13) }]
      links := #[{ target := 0 }, { target := 1 }] }
  memory := ()

def settled : World Int vocabulary Unit := world.setPin 0 (some 7)

theorem segmentAt?_eq (a : AnimationId) (position : Nat) :
    (world.scene.animation a).strategy.segmentAt? position = none := by
  match a with
  | 0 => rfl
  | 1 => rfl
  | _ + 2 => rfl

theorem slotAt?_ne_link (part : Part) (l : LinkId) :
    (world.scene.animation 1).strategy.slotAt? part ≠ some (.link l) := by
  cases part <;> simp [world, Scene.animation, Strategy.slotAt?]

/-- Only the first link refers to anything. -/
theorem eq_of_refers {l m : LinkId} (h : world.scene.Refers l m) : l = 0 := by
  obtain ⟨here, path, ⟨found, -⟩, hpath⟩ := h
  match l with
  | 0 => rfl
  | 1 =>
      obtain rfl : { target := 1 } = here := Option.some.inj found
      cases hpath with
      | slot hslot => exact absurd hslot (slotAt?_ne_link _ m)
      | segment hsegment => simp [segmentAt?_eq] at hsegment
  | _ + 2 => simp [world] at found

theorem apart (path : List Part) : ¬ world.scene.SlotLeads 0 (.link 1) path := by
  intro h
  cases h with
  | through _ hhere hpath =>
      obtain rfl := Option.some.inj hhere.1
      cases hpath with
      | slot hslot hpath =>
          cases hpath with
          | here => exact slotAt?_ne_link _ _ hslot
          | through => exact slotAt?_ne_link _ _ hslot
      | segment hsegment => simp [segmentAt?_eq] at hsegment

/-- The link beside is read as before, also after the eddy has been met. Once it is settled, the
eddy is still, and the interpolation is taken at the pin. -/
theorem stills_eddy :
    Option.Rel (World.Agree 0 (some 7) world settled)
      (host.run 2 (Routine.ask (.read (.link 1) .new)) world)
      (host.run 2 (Routine.ask (.read (.link 1) .new)) settled) ∧
    (∃ met still, host.Answers (.read (.link 0) .new) world 10 met ∧
      host.Answers (.read (.link 0) .new) settled 7 still ∧
      Option.Rel (World.Agree 0 (some 7) met still)
        (host.run 2 (Routine.ask (.read (.link 1) .new)) met)
        (host.run 2 (Routine.ask (.read (.link 1) .new)) still)) ∧
    ∃ w', host.Answers (.sample 0 .new) settled (.value 80) w' ∧
      respond host 1 (.read (.link 0) .new) w' = some (7, w') ∧
      ∀ m, .cycleMet m ∉ w'.journal.toList := by
  have computes : host.Computes world.memory ⟨Empty.elim, Empty.elim, Empty.elim⟩ :=
    ⟨fun s => s.elim, fun h => h.elim, rfl⟩
  have set : host.Answers (.setPin 0 (some 7)) world () settled := ⟨1, rfl⟩
  have idle : world.scene.Idle := by
    intro l
    match l with
    | 0 => rfl
    | 1 => rfl
    | _ + 2 => rfl
  have noRate : ∀ a source last current,
      (world.scene.animation a).strategy ≠ .rate source last current := by
    intro a source last current
    match a with
    | 0 => nofun
    | 1 => nofun
    | _ + 2 => nofun
  obtain ⟨reads, settles⟩ := settling_stays_at_slot host computes set
  have beside := reads (.link 1) apart .new
  refine ⟨beside.1 (.done ()) trivial 2, ?_, ?_⟩
  · obtain ⟨met, hmet⟩ : ∃ met, host.Answers (.read (.link 0) .new) world 10 met := ⟨_, 4, rfl⟩
    obtain ⟨still, hstill⟩ : ∃ still, host.Answers (.read (.link 0) .new) settled 7 still :=
      ⟨_, 1, rfl⟩
    refine ⟨met, still, hmet, hstill, ?_⟩
    exact beside.2 idle noRate met still (hmet.evaluations rfl) (hstill.evaluations rfl) 2
  · obtain ⟨w', hsample⟩ : ∃ w', host.Answers (.sample 0 .new) settled (.value 80) w' :=
      ⟨_, 2, rfl⟩
    obtain ⟨hread, hwarned⟩ := settles 7 rfl w' (hsample.evaluations rfl)
    refine ⟨w', hsample, hread rfl .new 0, ?_⟩
    intro m hm
    obtain ⟨es, hjournal, hes⟩ := hwarned idle
    have hm : .cycleMet m ∈ es := by simpa [hjournal, settled, World.setPin, world] using hm
    obtain ⟨before, after, heq⟩ := List.append_of_mem hm
    obtain ⟨-, cycle, -, chain, hmem, hzero⟩ := hes before m after heq
    obtain ⟨k, hk⟩ := Scene.refers_of_mem chain hmem
    exact hzero (eq_of_refers hk ▸ hmem)

end Eddy

end Inbetween
