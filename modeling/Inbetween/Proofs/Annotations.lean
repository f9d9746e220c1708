import Inbetween.Proofs.Terms

/-!
# The journal is written and not read

Neither the library nor host code does anything else because of what has been taken down before. So
a run goes on in the same way, and takes down the same events, in two worlds that differ in nothing
but their journals.

Two acts match if they come to the same results in such worlds and the journals that they leave
differ in nothing but certain marks. Matching is checked like a proof of sequential programs, one
step after the other, and an act matches itself. What is left to do by hand are the places in which
one act takes down a mark and the other does not.
-/

namespace Inbetween

open Act Evaluate

variable {α : Type} {V : Vocabulary} {M : Type} {β γ : Type}

/-! ## Acts that do not read the journal -/

/-- The world with other events before its own. -/
def World.after (past : Array (Event α V)) (w : World α V M) : World α V M :=
  { w with journal := past ++ w.journal }

theorem World.note_after (past : Array (Event α V)) (w : World α V M) (e : Event α V) :
    (w.after past).note e = (w.note e).after past := by
  simp [World.after, World.note]

/-- All calls are admitted, and nothing is granted. -/
def Terms.free (α : Type) (V : Vocabulary) (M : Type) : Terms α V M where
  admits _ _ := True
  grants _ _ _ _ := True

/-- Neither what the act sees nor what it does depends on what has been taken down before. -/
def Act.Unread (p : Act α V M β) : Prop :=
  ∀ past w, p.Meets (.free α V M) (World.after past) (fun _ _ => True) w

namespace Act.Unread

theorem done (b : β) : (Act.done b : Act α V M β).Unread := by
  intro past w
  trivial

theorem look {next : World α V M → Act α V M β}
    (same : ∀ past w, next (w.after past) = next w) (hnext : ∀ w, (next w).Unread) :
    (Act.look next).Unread := by
  intro past w
  exact ⟨same past w, hnext w past w⟩

theorem update {f : World α V M → World α V M} {next : Act α V M β}
    (same : ∀ past w, f (w.after past) = (f w).after past) (hnext : next.Unread) :
    (Act.update f next).Unread := by
  intro past w
  exact ⟨same past w, hnext past (f w)⟩

theorem bind {p : Act α V M β} {f : β → Act α V M γ} (hp : p.Unread) (hf : ∀ b, (f b).Unread) :
    (p.bind f).Unread := by
  intro past w
  apply Meets.bind
  apply (hp past w).mono
  intro b w' _
  exact hf b past w'

theorem of_onlyCalls {p : Act α V M β} (hp : p.OnlyCalls) : p.Unread := by
  induction p with
  | done b => exact done b
  | look next => exact hp.elim
  | update f next => exact hp.elim
  | call c next ih =>
      intro past w
      refine ⟨trivial, ?_⟩
      intro a w' _
      exact ih a (hp a) past w'

theorem see {f : World α V M → β} (same : ∀ past w, f (w.after past) = f w) :
    (Act.see f).Unread := by
  apply look
  · intro past w
    rw [same]
  · intro w
    exact done _

theorem note (e : Event α V) : (Act.note e : Act α V M Unit).Unread :=
  update (fun past w => w.note_after past e) (done ())

theorem modifyAnimation (a : AnimationId) (f : Animation α V → Animation α V) :
    (Act.modifyAnimation a f : Act α V M Unit).Unread :=
  update (fun _ _ => rfl) (done ())

theorem modifyLink (l : LinkId) (f : Link α → Link α) :
    (Act.modifyLink l f : Act α V M Unit).Unread :=
  update (fun _ _ => rfl) (done ())

theorem perform (r : Routine α V M β) : r.perform.Unread := of_onlyCalls (onlyCalls_perform r)

theorem extend (f : Scene α V → β × Scene α V) : (Act.extend f : Act α V M β).Unread := by
  apply look
  · intro past w
    rfl
  · intro w
    exact update (fun _ _ => rfl) (done _)

theorem grow (f : Scene α V → β × Scene α V) : (Act.grow f : Act α V M β).Unread := by
  refine (see fun _ _ => rfl).bind fun known => ?_
  refine (extend f).bind fun b => ?_
  refine (see fun _ _ => rfl).bind fun strategies => ?_
  exact (note _).bind fun _ => done b

theorem borrowing (a : AnimationId) {body : Act α V M β} (h : body.Unread) :
    (Evaluate.borrowing a body).Unread := by
  refine (modifyAnimation a _).bind fun _ => ?_
  refine h.bind fun b => ?_
  exact (modifyAnimation a _).bind fun _ => done b

/-! ### The rules -/

section Rules

variable [Scalar α] (host : Host α V M)

theorem strategy (a : AnimationId) (clock : Clock α) (s : Strategy α V) :
    (Evaluate.strategy host a clock s).Unread := by
  cases s with
  | interpolate i => exact borrowing a (of_onlyCalls (onlyCalls_interpolation clock i))
  | bezier points time extend =>
      exact (of_onlyCalls (onlyCalls_ratio clock time)).bind fun t => done _
  | wrap low high source =>
      have honly : (Evaluate.strategy host a clock (.wrap low high source)).OnlyCalls :=
        fun _ _ _ => trivial
      exact of_onlyCalls honly
  | rate source last current =>
      simp only [Evaluate.strategy]
      split
      · exact done _
      · have hread : (Act.ask (.read source clock) : Act α V M α).Unread :=
          of_onlyCalls fun _ => trivial
        refine hread.bind fun v => ?_
        exact (modifyAnimation a _).bind fun _ => done _
  | chain segments => exact of_onlyCalls (onlyCalls_chain clock segments)
  | custom s => exact done _

theorem sample (through : Option LinkId) (a : AnimationId) (clock : Clock α) :
    (Evaluate.sample host through a clock).Unread := by
  refine (note _).bind fun _ => ?_
  refine (see fun _ _ => rfl).bind fun anim => ?_
  refine (strategy host a clock _).bind fun s => ?_
  exact (note _).bind fun _ => done s

theorem evaluateIn (a : AnimationId) (l : LinkId) (clock : Clock α) :
    (Evaluate.evaluateIn host a l clock).Unread := by
  refine (sample host (some l) a clock).bind fun s => ?_
  cases s with
  | value v => exact done v
  | ended v =>
      refine (see fun _ _ => rfl).bind fun anim => ?_
      cases anim.hook with
      | none => exact done v
      | some hook => exact (note _).bind fun _ => perform _

theorem readLink (l : LinkId) (clock : Clock α) : (Evaluate.readLink host l clock).Unread := by
  refine (see fun _ _ => rfl).bind fun found => ?_
  rcases found with _ | ⟨target, busy, _ | v⟩
  · exact done _
  · cases busy with
    | true =>
        refine (note _).bind fun _ => ?_
        exact (modifyLink l _).bind fun _ => done _
    | false =>
        refine (note _).bind fun _ => ?_
        refine (modifyLink l _).bind fun _ => ?_
        refine (evaluateIn host target l clock).bind fun v => ?_
        refine (modifyLink l _).bind fun _ => ?_
        exact (note _).bind fun _ => done v
  · exact done v

theorem read (clock : Clock α) (s : Slot α V) : (Evaluate.read host clock s).Unread := by
  cases s with
  | constant v => exact done v
  | external source => exact (note _).bind fun _ => perform _
  | link l => exact readLink host l clock

omit [Scalar α]

/-- A change that is made and taken down if the animation is an interpolation. -/
theorem guarded {c : Prop} [Decidable c] {p : Act α V M Unit} (h : p.Unread) :
    (if c then p else Act.done ()).Unread := by
  split
  · exact h
  · exact done ()

theorem hold (a : AnimationId) : (Evaluate.hold a : Act α V M Unit).Unread := by
  refine (see fun _ _ => rfl).bind fun anim => ?_
  exact guarded ((modifyAnimation a _).bind fun _ => note _)

theorem release (a : AnimationId) : (Evaluate.release a : Act α V M Unit).Unread := by
  refine (see fun _ _ => rfl).bind fun anim => ?_
  exact guarded ((modifyAnimation a _).bind fun _ => note _)

theorem reconfigure (a : AnimationId) (change : Change α V) :
    (Evaluate.reconfigure a change : Act α V M Reconfigured).Unread := by
  refine (see fun _ _ => rfl).bind fun anim => ?_
  cases anim.strategy with
  | interpolate i =>
      show (if anim.isBorrowed = true then Act.done Reconfigured.busy else _).Unread
      split
      · exact done _
      · refine (modifyAnimation a _).bind fun _ => ?_
        exact (note _).bind fun _ => done _
  | _ => exact done _

theorem setHook (a : AnimationId) (hook : Option V.Hook) :
    (Evaluate.setHook a hook : Act α V M Unit).Unread := by
  refine (see fun _ _ => rfl).bind fun size => ?_
  exact guarded ((modifyAnimation a _).bind fun _ => note _)

theorem setPin (l : LinkId) (pin : Option α) :
    (Evaluate.setPin l pin : Act α V M Unit).Unread := by
  refine (see fun _ _ => rfl).bind fun found => ?_
  exact guarded ((modifyLink l _).bind fun _ => note _)

theorem notes (ns : List (Note α)) :
    (ns.forM fun n => (Act.note (.noted n) : Act α V M Unit)).Unread := by
  induction ns with
  | nil => exact done ()
  | cons n rest ih => exact (note _).bind fun _ => ih

theorem install (draft : Draft α β) (add : β → Scene α V → AnimationId × Scene α V) :
    (Evaluate.install draft add : Act α V M _).Unread := by
  refine (notes draft.notes).bind fun _ => ?_
  cases draft.outcome with
  | error e => exact done _
  | ok b => exact (grow (add b)).bind fun a => done _

end Rules

end Act.Unread

section Answers

variable [Scalar α] {host : Host α V M}

theorem unread_answer (host : Host α V M) (c : Call α V M) :
    (Evaluate.answer host c).Unread := by
  cases c with
  | read slot clock => exact .read host clock slot
  | sample a clock => exact .sample host none a clock
  | evaluateIn a l clock => exact .evaluateIn host a l clock
  | hold a => exact .hold a
  | release a => exact .release a
  | reconfigure a change => exact .reconfigure a change
  | setHook a hook => exact .setHook a hook
  | setPin l pin => exact .setPin l pin
  | add strategy => exact .grow _
  | addLink a => exact Act.Unread.extend fun sc => sc.addLink { target := a }
  | cloneSlot slot => exact Act.Unread.extend fun sc => sc.cloneSlot slot
  | build spec cfg clock current => exact .install _ _
  | buildChain spec cfg clock current => exact .install _ _
  | scene => exact .see fun _ _ => rfl
  | «recall» => exact .see fun _ _ => rfl
  | remember memory => exact .update (fun _ _ => rfl) (.done ())

theorem Terms.sound_free (host : Host α V M) (past : Array (Event α V)) :
    (Terms.free α V M).Sound (World.after past) host := by
  intro c w _
  exact (unread_answer host c past w).mono fun _ _ _ => trivial

/-- A run in a world that others have written to before. -/
theorem Act.Unread.run_after {p : Act α V M β} (hp : p.Unread) (n : Nat)
    (past : Array (Event α V)) (w : World α V M) :
    p.run (respond host n) (w.after past) =
      (p.run (respond host n) w).map (Prod.map id (World.after past)) :=
  ((hp past w).run ((Terms.sound_free host past).respond n)).1

/-- The events of a run are the same wherever it begins, as long as scene and memory are. -/
theorem Act.Unread.exists_events {p : Act α V M β} (hp : p.Unread) {w w' : World α V M} {b : β}
    (h : p.Yields host w b w') :
    ∃ es : List (Event α V), w'.journal.toList = w.journal.toList ++ es ∧
      ∀ w₂ : World α V M, w₂.scene = w.scene → w₂.memory = w.memory →
        p.Yields host w₂ b { w' with journal := w₂.journal ++ es.toArray } := by
  obtain ⟨n, hrun⟩ := h
  -- Both runs are the run in the world in which nothing has been taken down.
  have hself : ({ w with journal := #[] } : World α V M).after w.journal = w := by
    simp [World.after]
  rw [← hself, hp.run_after, Option.map_eq_some_iff] at hrun
  obtain ⟨⟨b', w₀⟩, hrun, heq⟩ := hrun
  obtain ⟨rfl, rfl⟩ := Prod.mk.inj heq
  refine ⟨w₀.journal.toList, by simp [World.after], ?_⟩
  intro w₂ hscene hmemory
  have htwin : ({ w with journal := #[] } : World α V M).after w₂.journal = w₂ := by
    obtain ⟨scene, memory, journal⟩ := w₂
    obtain rfl := hscene
    obtain rfl := hmemory
    simp [World.after]
  refine ⟨n, ?_⟩
  rw [← htwin, hp.run_after, hrun]
  simp [World.after]

end Answers

/-! ## Worlds that differ in marks -/

/-- The worlds differ in nothing but the marks that have been taken down in them. -/
structure World.Alike (mark : Event α V → Bool) (w w' : World α V M) : Prop where
  scene : w'.scene = w.scene
  memory : w'.memory = w.memory
  journal : w'.journal.toList.filter (!mark ·) = w.journal.toList.filter (!mark ·)

namespace World.Alike

variable {mark : Event α V → Bool} {w w' w'' : World α V M}

theorem symm (h : w.Alike mark w') : w'.Alike mark w :=
  ⟨h.scene.symm, h.memory.symm, h.journal.symm⟩

theorem trans (h : w.Alike mark w') (h' : w'.Alike mark w'') : w.Alike mark w'' :=
  ⟨h'.scene.trans h.scene, h'.memory.trans h.memory, h'.journal.trans h.journal⟩

/-- A mark makes no difference. -/
theorem marked {e : Event α V} (he : mark e = true) (w : World α V M) : w.Alike mark (w.note e) := by
  refine ⟨rfl, rfl, ?_⟩
  rw [World.note_journal, List.filter_append]
  simp [he]

end World.Alike

/-! ## Acts that match -/

variable [Scalar α] {host : Host α V M} {mark : Event α V → Bool} {w w' : World α V M}

/-- Begun in one world each, the acts come to the same results, and the worlds that they leave
differ in nothing but marks. -/
def Act.Matches (host : Host α V M) (mark : Event α V → Bool) (p q : Act α V M β)
    (w w' : World α V M) : Prop :=
  (∀ b w₁, p.Yields host w b w₁ → ∃ w₂, q.Yields host w' b w₂ ∧ w₁.Alike mark w₂) ∧
  (∀ b w₂, q.Yields host w' b w₂ → ∃ w₁, p.Yields host w b w₁ ∧ w₁.Alike mark w₂)

namespace Act.Matches

theorem symm {p q : Act α V M β} (h : p.Matches host mark q w w') :
    q.Matches host mark p w' w := by
  constructor
  · intro b w₂ hq
    obtain ⟨w₁, hp, halike⟩ := h.2 b w₂ hq
    exact ⟨w₁, hp, halike.symm⟩
  · intro b w₁ hp
    obtain ⟨w₂, hq, halike⟩ := h.1 b w₁ hp
    exact ⟨w₂, hq, halike.symm⟩

/-- What an act does in one world, it does in the other. -/
theorem follows {p : Act α V M β} (hp : p.Unread) (hw : w.Alike mark w') {b : β}
    {w₁ : World α V M} (h : p.Yields host w b w₁) :
    ∃ w₂, p.Yields host w' b w₂ ∧ w₁.Alike mark w₂ := by
  obtain ⟨es, hjournal, htwin⟩ := hp.exists_events h
  refine ⟨_, htwin w' hw.scene hw.memory, rfl, rfl, ?_⟩
  rw [hjournal, List.filter_append, ← hw.journal]
  simp

theorem refl {p : Act α V M β} (hp : p.Unread) (hw : w.Alike mark w') :
    p.Matches host mark p w w' := by
  constructor
  · intro b w₁ h
    exact follows hp hw h
  · intro b w₂ h
    obtain ⟨w₁, h₁, halike⟩ := follows hp hw.symm h
    exact ⟨w₁, h₁, halike.symm⟩

theorem bind {p q : Act α V M β} {f g : β → Act α V M γ} (h : p.Matches host mark q w w')
    (hf : ∀ b w₁ w₂, p.Yields host w b w₁ → w₁.Alike mark w₂ →
      (f b).Matches host mark (g b) w₁ w₂) :
    (p.bind f).Matches host mark (q.bind g) w w' := by
  constructor
  · intro c w₃ hrun
    obtain ⟨b, w₁, hp, hc⟩ := yields_bind.mp hrun
    obtain ⟨w₂, hq, halike⟩ := h.1 b w₁ hp
    obtain ⟨w₄, hc', halike'⟩ := (hf b w₁ w₂ hp halike).1 c w₃ hc
    exact ⟨w₄, hq.bind hc', halike'⟩
  · intro c w₄ hrun
    obtain ⟨b, w₂, hq, hc⟩ := yields_bind.mp hrun
    obtain ⟨w₁, hp, halike⟩ := h.2 b w₂ hq
    obtain ⟨w₃, hc', halike'⟩ := (hf b w₁ w₂ hp halike).2 c w₄ hc
    exact ⟨w₃, hp.bind hc', halike'⟩

/-- The end of a sample may be a mark. -/
theorem sampled {a : AnimationId} {clock : Clock α} {q : Act α V M (Sample α)}
    (finished : ∀ s, mark (.sampleFinished a none s) = true)
    (h : (Evaluate.strategy host a clock (w.scene.animation a).strategy).Matches host mark q
      (w.note (.sampleBegan a none)) w') :
    (ask (.sample a clock)).Matches host mark q w w' := by
  have hsample : ∀ {s w₁}, (ask (.sample a clock) : Act α V M (Sample α)).Yields host w s w₁ ↔
      (Evaluate.sample host none a clock).Yields host w s w₁ := by
    intro s w₁
    rw [yields_ask, Host.answers_iff]
    rfl
  constructor
  · intro s w₁ hrun
    obtain ⟨w₀, hstrategy, rfl⟩ := yields_sample_iff.mp (hsample.mp hrun)
    obtain ⟨w₂, hq, halike⟩ := h.1 s w₀ hstrategy
    exact ⟨w₂, hq, (World.Alike.marked (finished s) w₀).symm.trans halike⟩
  · intro s w₂ hq
    obtain ⟨w₀, hstrategy, halike⟩ := h.2 s w₂ hq
    refine ⟨_, hsample.mpr (yields_sample_iff.mpr ⟨w₀, hstrategy, rfl⟩), ?_⟩
    exact (World.Alike.marked (finished s) w₀).symm.trans halike

end Act.Matches

end Inbetween
