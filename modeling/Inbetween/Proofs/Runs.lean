import Inbetween.World.Evaluate

/-!
# Runs

Runs without a depth: an act yields a result if it does so at some depth, and then it does at every
greater one. Beside the end of a run there are its moments, the worlds in which a call is made or
has just been answered. These are all the worlds that host code can see, and a run that never ends
has them too.

What holds at every moment is proved by a contract: an invariant of the moments, and what becomes of
the world from a call to its answer. A contract is checked on one rule at a time.
-/

namespace Inbetween

variable {α : Type} [Scalar α] {V : Vocabulary} {M : Type} {β γ : Type}

/-! ## Acts as trees -/

namespace Act

omit [Scalar α]

@[simp] theorem pure_eq_done (b : β) : (pure b : Act α V M β) = .done b := rfl

@[simp] theorem bind_eq_bind (p : Act α V M β) (f : β → Act α V M γ) : p >>= f = p.bind f := rfl

@[simp] theorem done_bind (b : β) (f : β → Act α V M γ) : (done b : Act α V M β).bind f = f b := rfl

@[simp] theorem look_bind (next : World α V M → Act α V M β) (f : β → Act α V M γ) :
    (look next).bind f = look fun w => (next w).bind f := rfl

@[simp] theorem update_bind (g : World α V M → World α V M) (next : Act α V M β)
    (f : β → Act α V M γ) : (update g next).bind f = update g (next.bind f) := rfl

@[simp] theorem call_bind (c : Call α V M) (next : c.Answer → Act α V M β)
    (f : β → Act α V M γ) : (call c next).bind f = call c fun a => (next a).bind f := rfl

@[simp] theorem see_bind (g : World α V M → β) (f : β → Act α V M γ) :
    (see g).bind f = look fun w => f (g w) := rfl

@[simp] theorem modify_bind (g : World α V M → World α V M) (f : Unit → Act α V M γ) :
    (modify g).bind f = update g (f ()) := rfl

@[simp] theorem note_bind (e : Event α V) (f : Unit → Act α V M γ) :
    (note e).bind f = update (·.note e) (f ()) := rfl

@[simp] theorem animation_bind (a : AnimationId) (f : Animation α V → Act α V M γ) :
    (animation a).bind f = look fun w => f (w.scene.animation a) := rfl

@[simp] theorem modifyAnimation_bind (a : AnimationId) (g : Animation α V → Animation α V)
    (f : Unit → Act α V M γ) :
    (modifyAnimation a g).bind f = update (·.modifyAnimation a g) (f ()) := rfl

@[simp] theorem link?_bind (l : LinkId) (f : Option (Link α) → Act α V M γ) :
    (link? l).bind f = look fun w => f w.scene.links[l]? := rfl

@[simp] theorem modifyLink_bind (l : LinkId) (g : Link α → Link α) (f : Unit → Act α V M γ) :
    (modifyLink l g).bind f = update (·.modifyLink l g) (f ()) := rfl

theorem run_bind (answer : (c : Call α V M) → World α V M → Option (c.Answer × World α V M))
    (p : Act α V M β) (f : β → Act α V M γ) (w : World α V M) :
    (p.bind f).run answer w = (p.run answer w).bind fun r => (f r.1).run answer r.2 := by
  induction p generalizing w with
  | done b => rfl
  | look next ih => exact ih w w
  | update g next ih => exact ih (g w)
  | call c next ih =>
      simp only [call_bind, run]
      cases answer c w with
      | none => rfl
      | some r => exact ih r.1 r.2

/-- More answers do not change a result that stands. -/
theorem run_mono {answer answer' : (c : Call α V M) → World α V M → Option (c.Answer × World α V M)}
    (h : ∀ c w r, answer c w = some r → answer' c w = some r) {p : Act α V M β} {w : World α V M}
    {r : β × World α V M} (hr : p.run answer w = some r) : p.run answer' w = some r := by
  induction p generalizing w with
  | done b => exact hr
  | look next ih => exact ih w hr
  | update g next ih => exact ih hr
  | call c next ih =>
      simp only [run] at hr ⊢
      cases hc : answer c w with
      | none => simp [hc] at hr
      | some s =>
          rw [hc] at hr
          rw [h c w s hc]
          exact ih s.1 hr

end Act

theorem respond_mono (host : Host α V M) {m n : Nat} (hmn : m ≤ n) {c : Call α V M}
    {w : World α V M} {r : c.Answer × World α V M} (h : respond host m c w = some r) :
    respond host n c w = some r := by
  induction m generalizing n c w with
  | zero => simp [respond] at h
  | succ m ih =>
      obtain ⟨n, rfl⟩ : ∃ n', n = n' + 1 := ⟨n - 1, by omega⟩
      exact Act.run_mono (fun c w r hr => ih (by omega) hr) h

/-! ## Results -/

/-- The call, made in `w`, is answered by `a` and leaves `w'`. -/
def Host.Answers (host : Host α V M) (c : Call α V M) (w : World α V M) (a : c.Answer)
    (w' : World α V M) : Prop :=
  ∃ depth, respond host depth c w = some (a, w')

/-- The act, begun in `w`, comes to `b` and leaves `w'`. -/
def Act.Yields (host : Host α V M) (p : Act α V M β) (w : World α V M) (b : β)
    (w' : World α V M) : Prop :=
  ∃ depth, p.run (respond host depth) w = some (b, w')

namespace Act

variable {host : Host α V M} {w w' w'' : World α V M}

theorem run_respond_mono {m n : Nat} (hmn : m ≤ n) {p : Act α V M β} {r : β × World α V M}
    (h : p.run (respond host m) w = some r) : p.run (respond host n) w = some r :=
  run_mono (fun _ _ _ hr => respond_mono host hmn hr) h

@[simp] theorem yields_done {b b' : β} :
    (done b : Act α V M β).Yields host w b' w' ↔ b' = b ∧ w' = w := by
  simp [Yields, run, eq_comm]

@[simp] theorem yields_look {next : World α V M → Act α V M β} {b : β} :
    (look next).Yields host w b w' ↔ (next w).Yields host w b w' := Iff.rfl

@[simp] theorem yields_update {f : World α V M → World α V M} {next : Act α V M β} {b : β} :
    (update f next).Yields host w b w' ↔ next.Yields host (f w) b w' := Iff.rfl

theorem yields_bind {p : Act α V M β} {f : β → Act α V M γ} {c : γ} :
    (p.bind f).Yields host w c w'' ↔
      ∃ b w', p.Yields host w b w' ∧ (f b).Yields host w' c w'' := by
  constructor
  · rintro ⟨depth, h⟩
    rw [run_bind, Option.bind_eq_some_iff] at h
    obtain ⟨⟨b, w'⟩, hp, hf⟩ := h
    exact ⟨b, w', ⟨depth, hp⟩, ⟨depth, hf⟩⟩
  · rintro ⟨b, w', ⟨m, hp⟩, ⟨n, hf⟩⟩
    refine ⟨max m n, ?_⟩
    rw [run_bind, run_respond_mono (Nat.le_max_left m n) hp]
    exact run_respond_mono (Nat.le_max_right m n) hf

@[simp] theorem yields_ask {c : Call α V M} {a : c.Answer} :
    (ask c).Yields host w a w' ↔ host.Answers c w a w' := by
  simp only [Yields, Host.Answers, ask, run]
  refine exists_congr fun depth => ?_
  cases respond host depth c w with
  | none => simp
  | some r => simp [Prod.ext_iff]

theorem yields_call {c : Call α V M} {next : c.Answer → Act α V M β} {b : β} :
    (call c next).Yields host w b w'' ↔
      ∃ a w', host.Answers c w a w' ∧ (next a).Yields host w' b w'' := by
  have h : call c next = (ask c).bind next := rfl
  simp only [h, yields_bind, yields_ask]

theorem Yields.bind {p : Act α V M β} {f : β → Act α V M γ} {b : β} {c : γ}
    (hp : p.Yields host w b w') (hf : (f b).Yields host w' c w'') :
    (p.bind f).Yields host w c w'' :=
  yields_bind.mpr ⟨b, w', hp, hf⟩

/-- An act comes to at most one result, and leaves at most one world. -/
theorem Yields.unique {p : Act α V M β} {b b' : β} (h : p.Yields host w b w')
    (h' : p.Yields host w b' w'') : b = b' ∧ w' = w'' := by
  obtain ⟨m, h⟩ := h
  obtain ⟨n, h'⟩ := h'
  have hm := run_respond_mono (Nat.le_max_left m n) h
  have hn := run_respond_mono (Nat.le_max_right m n) h'
  simpa using hm.symm.trans hn

theorem Yields.yields_iff {p : Act α V M β} {b b' : β} (h : p.Yields host w b w') :
    p.Yields host w b' w'' ↔ b' = b ∧ w'' = w' := by
  constructor
  · intro h'
    exact h'.unique h
  · rintro ⟨rfl, rfl⟩
    exact h

end Act

namespace Host

variable {host : Host α V M} {c : Call α V M} {w w' w'' : World α V M} {a a' : c.Answer}

/-- A call is answered by its rule. -/
theorem answers_iff : host.Answers c w a w' ↔ (Evaluate.answer host c).Yields host w a w' := by
  constructor
  · rintro ⟨depth, h⟩
    cases depth with
    | zero => simp [respond] at h
    | succ depth => exact ⟨depth, h⟩
  · rintro ⟨depth, h⟩
    exact ⟨depth + 1, h⟩

theorem Answers.eventually (h : host.Answers c w a w') :
    ∃ depth, ∀ n, depth ≤ n → respond host n c w = some (a, w') := by
  obtain ⟨depth, h⟩ := h
  exact ⟨depth, fun n hn => respond_mono host hn h⟩

/-- A call has at most one answer, and leaves at most one world. -/
theorem Answers.unique (h : host.Answers c w a w') (h' : host.Answers c w a' w'') :
    a = a' ∧ w' = w'' := by
  obtain ⟨m, h⟩ := h.eventually
  obtain ⟨n, h'⟩ := h'.eventually
  have hm := h (max m n) (Nat.le_max_left m n)
  have hn := h' (max m n) (Nat.le_max_right m n)
  simpa using hm.symm.trans hn

end Host

/-! ## Moments -/

/-- The act, begun in `w`, has a moment in `w'`: it makes a call there or has just had it answered,
or there is such a moment while one of its calls is being answered. -/
inductive Act.Visits (host : Host α V M) :
    {β : Type} → Act α V M β → World α V M → World α V M → Prop
  | look {β : Type} {next : World α V M → Act α V M β} {w w' : World α V M} :
      (next w).Visits host w w' → (Act.look next).Visits host w w'
  | update {β : Type} {f : World α V M → World α V M} {next : Act α V M β} {w w' : World α V M} :
      next.Visits host (f w) w' → (Act.update f next).Visits host w w'
  | made {β : Type} {c : Call α V M} {next : c.Answer → Act α V M β} {w : World α V M} :
      (Act.call c next).Visits host w w
  | within {β : Type} {c : Call α V M} {next : c.Answer → Act α V M β} {w w' : World α V M} :
      (Evaluate.answer host c).Visits host w w' → (Act.call c next).Visits host w w'
  | answered {β : Type} {c : Call α V M} {next : c.Answer → Act α V M β} {w w' : World α V M}
      {a : c.Answer} : host.Answers c w a w' → (Act.call c next).Visits host w w'
  | after {β : Type} {c : Call α V M} {next : c.Answer → Act α V M β} {w w' w'' : World α V M}
      {a : c.Answer} : host.Answers c w a w' → (next a).Visits host w' w'' →
      (Act.call c next).Visits host w w''

/-- The run of a routine that begins in `w` has a moment in `w'`. -/
def Host.Reaches (host : Host α V M) (r : Routine α V M β) (w w' : World α V M) : Prop :=
  r.perform.Visits host w w'

/-- An outermost call of the routine, which begins in `w`, has just been answered in `w'`. -/
inductive Host.Pauses (host : Host α V M) {β : Type} :
    Routine α V M β → World α V M → World α V M → Prop
  | first {c : Call α V M} {next : c.Answer → Routine α V M β} {w w' : World α V M}
      {a : c.Answer} : host.Answers c w a w' → host.Pauses (.call c next) w w'
  | later {c : Call α V M} {next : c.Answer → Routine α V M β} {w w' w'' : World α V M}
      {a : c.Answer} : host.Answers c w a w' → host.Pauses (next a) w' w'' →
      host.Pauses (.call c next) w w''

/-! ## Contracts -/

/-- What is kept by answering calls: something holds whenever a call is made or answered, and the
answer to a call finds the world in a certain relation to the world in which the call was made. -/
structure Contract (α : Type) (V : Vocabulary) (M : Type) where
  holds : World α V M → Prop
  moves : World α V M → World α V M → Prop
  refl : ∀ w, moves w w
  trans : ∀ {w w' w''}, moves w w' → moves w' w'' → moves w w''

/-- The contract allows to go from one world to the other. -/
def Contract.Allows (k : Contract α V M) (w w' : World α V M) : Prop := k.holds w' ∧ k.moves w w'

omit [Scalar α] in
theorem Contract.Allows.trans {k : Contract α V M} {w w' w'' : World α V M} (h : k.Allows w w')
    (h' : k.Allows w' w'') : k.Allows w w'' :=
  ⟨h'.1, k.trans h.2 h'.2⟩

namespace Act

variable {k : Contract α V M} {w : World α V M}

omit [Scalar α]

/-- The act, begun in `w`, keeps its side of a contract and ends as `Q` says, as far as its calls
are answered by the contract. -/
def Keeps (k : Contract α V M) : Act α V M β → (β → World α V M → Prop) → World α V M → Prop
  | .done b, Q, w => Q b w
  | .look next, Q, w => (next w).Keeps k Q w
  | .update f next, Q, w => next.Keeps k Q (f w)
  | .call _ next, Q, w =>
    k.holds w ∧ ∀ a w', k.holds w' → k.moves w w' → (next a).Keeps k Q w'

@[simp] theorem keeps_done {b : β} {Q : β → World α V M → Prop} :
    (done b : Act α V M β).Keeps k Q w ↔ Q b w := Iff.rfl

@[simp] theorem keeps_look {next : World α V M → Act α V M β} {Q : β → World α V M → Prop} :
    (look next).Keeps k Q w ↔ (next w).Keeps k Q w := Iff.rfl

@[simp] theorem keeps_update {f : World α V M → World α V M} {next : Act α V M β}
    {Q : β → World α V M → Prop} : (update f next).Keeps k Q w ↔ next.Keeps k Q (f w) := Iff.rfl

theorem Keeps.mono {Q Q' : β → World α V M → Prop} (hQ : ∀ b w', Q b w' → Q' b w')
    {p : Act α V M β} (h : p.Keeps k Q w) : p.Keeps k Q' w := by
  induction p generalizing w with
  | done b => exact hQ b w h
  | look next ih => exact ih w h
  | update f next ih => exact ih h
  | call c next ih => exact ⟨h.1, fun a w' hw' hm => ih a (h.2 a w' hw' hm)⟩

/-- What comes after an allowed step, seen from before it. -/
theorem Keeps.after {w₁ w₂ : World α V M} {p : Act α V M β} (h₁ : k.Allows w w₁)
    (h : p.Keeps k (fun _ w' => k.Allows w₁ w') w₂) : p.Keeps k (fun _ w' => k.Allows w w') w₂ :=
  h.mono fun _ _ h₂ => h₁.trans h₂

@[simp] theorem keeps_see {f : World α V M → β} {Q : β → World α V M → Prop} :
    (see f).Keeps k Q w ↔ Q (f w) w := Iff.rfl

@[simp] theorem keeps_modify {f : World α V M → World α V M} {Q : Unit → World α V M → Prop} :
    (modify f).Keeps k Q w ↔ Q () (f w) := Iff.rfl

@[simp] theorem keeps_note {e : Event α V} {Q : Unit → World α V M → Prop} :
    (note e).Keeps k Q w ↔ Q () (w.note e) := Iff.rfl

@[simp] theorem keeps_animation {a : AnimationId} {Q : Animation α V → World α V M → Prop} :
    (animation a).Keeps k Q w ↔ Q (w.scene.animation a) w := Iff.rfl

@[simp] theorem keeps_modifyAnimation {a : AnimationId} {f : Animation α V → Animation α V}
    {Q : Unit → World α V M → Prop} :
    (modifyAnimation a f).Keeps k Q w ↔ Q () (w.modifyAnimation a f) := Iff.rfl

@[simp] theorem keeps_link? {l : LinkId} {Q : Option (Link α) → World α V M → Prop} :
    (link? l).Keeps k Q w ↔ Q w.scene.links[l]? w := Iff.rfl

@[simp] theorem keeps_modifyLink {l : LinkId} {f : Link α → Link α}
    {Q : Unit → World α V M → Prop} :
    (modifyLink l f).Keeps k Q w ↔ Q () (w.modifyLink l f) := Iff.rfl

@[simp] theorem keeps_extend {f : Scene α V → β × Scene α V} {Q : β → World α V M → Prop} :
    (extend f).Keeps k Q w ↔ Q (f w.scene).1 { w with scene := (f w.scene).2 } := Iff.rfl

@[simp] theorem keeps_bind {p : Act α V M β} {f : β → Act α V M γ} {Q : γ → World α V M → Prop} :
    (p.bind f).Keeps k Q w ↔ p.Keeps k (fun b w' => (f b).Keeps k Q w') w := by
  induction p generalizing w with
  | done b => rfl
  | look next ih => exact ih w
  | update g next ih => exact ih
  | call c next ih =>
      refine and_congr Iff.rfl ?_
      exact forall_congr' fun a => forall_congr' fun w' =>
        forall_congr' fun _ => forall_congr' fun _ => ih a

/-- The act does nothing but make calls. -/
def OnlyCalls : Act α V M β → Prop
  | .done _ => True
  | .look _ => False
  | .update _ _ => False
  | .call _ next => ∀ a, (next a).OnlyCalls

theorem OnlyCalls.bind {p : Act α V M β} {f : β → Act α V M γ} (hp : p.OnlyCalls)
    (hf : ∀ b, (f b).OnlyCalls) : (p.bind f).OnlyCalls := by
  induction p with
  | done b => exact hf b
  | look next => exact hp.elim
  | update g next => exact hp.elim
  | call c next ih => exact fun a => ih a (hp a)

theorem onlyCalls_perform (r : Routine α V M β) : r.perform.OnlyCalls := by
  induction r with
  | done b => trivial
  | call c next ih => exact ih

/-- An act that does nothing but make calls keeps every contract. -/
theorem OnlyCalls.keeps {p : Act α V M β} (hp : p.OnlyCalls) (hw : k.holds w) :
    p.Keeps k (fun _ w' => k.Allows w w') w := by
  induction p generalizing w with
  | done b => exact ⟨hw, k.refl w⟩
  | look next => exact hp.elim
  | update f next => exact hp.elim
  | call c next ih => exact ⟨hw, fun a w' hw' hm => (ih a (hp a) hw').after ⟨hw', hm⟩⟩

end Act

theorem Evaluate.onlyCalls_ratio (clock : Clock α) (time : TimeSource α V) :
    (Evaluate.ratio (M := M) clock time).OnlyCalls := by
  cases time with
  | slot s => exact fun _ => trivial
  | pace p => trivial

theorem Evaluate.onlyCalls_interpolation (clock : Clock α) (i : Interpolation α V) :
    (Evaluate.interpolation (M := M) clock i).OnlyCalls :=
  (onlyCalls_ratio clock i.time).bind fun _ _ _ => trivial

theorem Evaluate.onlyCalls_chain (clock : Clock α) (segments : List AnimationId) :
    (Evaluate.chain (V := V) (M := M) clock segments).OnlyCalls := by
  induction segments with
  | nil => trivial
  | cons segment rest ih =>
      cases rest with
      | nil => exact fun _ => trivial
      | cons next rest =>
          intro s
          cases s with
          | value v => trivial
          | ended v => exact ih

omit [Scalar α] in
theorem Evaluate.keeps_borrowing {k : Contract α V M} {w : World α V M} {a : AnimationId}
    {body : Act α V M β} {Q : β → World α V M → Prop} :
    (Evaluate.borrowing a body).Keeps k Q w ↔
      body.Keeps k
        (fun b w' => Q b (w'.modifyAnimation a fun anim =>
          { anim with sampling := anim.sampling - 1 }))
        (w.modifyAnimation a fun anim => { anim with sampling := anim.sampling + 1 }) := by
  simp [Evaluate.borrowing]

/-- Every rule keeps its side of the contract, and answers by it. -/
def Contract.Sound (k : Contract α V M) (host : Host α V M) : Prop :=
  ∀ c w, k.holds w →
    (Evaluate.answer host c).Keeps k (fun _ w' => k.Allows w w') w

namespace Contract.Sound

variable {k : Contract α V M} {host : Host α V M} {w w' : World α V M}

theorem run (hk : k.Sound host) (depth : Nat) {Q : β → World α V M → Prop} {p : Act α V M β}
    {b : β} (hp : p.Keeps k Q w) (hr : p.run (respond host depth) w = some (b, w')) : Q b w' := by
  -- The calls are answered one level deeper, where the rules keep the contract by induction.
  induction depth generalizing β p w b w' with
  | zero =>
      induction p generalizing w with
      | done c => cases hr; exact hp
      | look next ih => exact ih w hp hr
      | update f next ih => exact ih hp hr
      | call c next => simp [Act.run, respond] at hr
  | succ depth ihd =>
      induction p generalizing w with
      | done c => cases hr; exact hp
      | look next ih => exact ih w hp hr
      | update f next ih => exact ih hp hr
      | call c next ih =>
          cases hc : respond host (depth + 1) c w with
          | none => simp [Act.run, hc] at hr
          | some r =>
              obtain ⟨a, w₁⟩ := r
              rw [Act.run, hc] at hr
              have hans := ihd (hk c w hp.1) hc
              exact ih a (hp.2 a w₁ hans.1 hans.2) hr

theorem yields (hk : k.Sound host) {Q : β → World α V M → Prop} {p : Act α V M β} {b : β}
    (hp : p.Keeps k Q w) (hy : p.Yields host w b w') : Q b w' := by
  obtain ⟨depth, h⟩ := hy
  exact hk.run depth hp h

theorem answers (hk : k.Sound host) {c : Call α V M} {a : c.Answer} (hw : k.holds w)
    (ha : host.Answers c w a w') : k.Allows w w' :=
  hk.yields (Q := fun _ w' => k.Allows w w') (hk c w hw) (Host.answers_iff.mp ha)

theorem visits (hk : k.Sound host) {Q : β → World α V M → Prop} {p : Act α V M β}
    (hp : p.Keeps k Q w) (hv : p.Visits host w w') : k.holds w' := by
  induction hv with
  | look _ ih => exact ih hp
  | update _ ih => exact ih hp
  | made => exact hp.1
  | within _ ih => exact ih (hk _ _ hp.1)
  | answered ha => exact (hk.answers hp.1 ha).1
  | after ha _ ih =>
      obtain ⟨hw, hm⟩ := hk.answers hp.1 ha
      exact ih (hp.2 _ _ hw hm)

/-- What a contract says holds at every moment of every run. -/
theorem reaches (hk : k.Sound host) {r : Routine α V M β} (hw : k.holds w)
    (h : host.Reaches r w w') : k.holds w' :=
  hk.visits ((Act.onlyCalls_perform r).keeps hw) h

theorem pauses (hk : k.Sound host) {r : Routine α V M β} (hw : k.holds w)
    (h : host.Pauses r w w') : k.Allows w w' := by
  induction h with
  | first ha => exact hk.answers hw ha
  | later ha _ ih =>
      have h₁ := hk.answers hw ha
      exact h₁.trans (ih h₁.1)

end Contract.Sound

end Inbetween
