import Inbetween.Proofs.Drafts
import Inbetween.Proofs.Plans

/-!
# Building chains

A chain is built out of segments that could as well be built one by one. Once every segment has
taken over what it misses from the segment before it, none of them needs the others: the chain can
be built if each segment can be built alone, and it is the chain of the animations that come out of
that. If some segment fails, the first one says why, and the segments behind it are not looked at.
-/

namespace Inbetween

open Act

variable {α : Type} [Scalar α] {V : Vocabulary} {M : Type}

namespace Routine

/-- Builds descriptions one after the other, until one fails. -/
def buildEach (cfg : Config) (clock : Clock α) :
    ChainSpec α → Routine α V M (Except (Error α) (List AnimationId))
  | [] => return .ok []
  | s :: rest => do
    match ← ask (.build s cfg clock none) with
    | .error e => return .error e
    | .ok a => return (← buildEach cfg clock rest).map (a :: ·)

/-- Makes a chain out of animations that are built one after the other. -/
def buildApart (cfg : Config) (clock : Clock α) (c : ChainSpec α) :
    Routine α V M (Except (Error α) AnimationId) := do
  match ← buildEach cfg clock c with
  | .error e => return .error e
  | .ok segments => return .ok (← ask (.add (.chain segments)))

end Routine

namespace Host

/-- The description can be built without a current value. -/
def Builds (host : Host α V M) (cfg : Config) (clock : Clock α) (w : World α V M)
    (s : Spec α) : Prop :=
  ∃ a w', host.Answers (.build s cfg clock none) w (.ok a) w'

/-- Building the description without a current value fails. -/
def Refuses (host : Host α V M) (cfg : Config) (clock : Clock α) (w : World α V M)
    (s : Spec α) (e : Error α) : Prop :=
  ∃ w', host.Answers (.build s cfg clock none) w (.error e) w'

/-- Number `i` of the descriptions is the first one that cannot be built. -/
structure FirstRefuses (host : Host α V M) (cfg : Config) (clock : Clock α) (w : World α V M)
    (specs : ChainSpec α) (i : Nat) (s : Spec α) (e : Error α) : Prop where
  found : specs[i]? = some s
  earlier : ∀ x ∈ specs.take i, host.Builds cfg clock w x
  fails : host.Refuses cfg clock w s e

end Host

/-! ## Segments alone -/

section Chains

variable {host : Host α V M} {cfg : Config} {clock : Clock α} {w w' : World α V M}

theorem Host.builds_iff {s : Spec α} :
    host.Builds cfg clock w s ↔ ∃ p, (s.plan cfg clock none none).outcome = .ok p :=
  exists_answers_build_ok

theorem Host.refuses_iff {s : Spec α} {e : Error α} :
    host.Refuses cfg clock w s e ↔ (s.plan cfg clock none none).outcome = .error e :=
  exists_answers_build_error

/-- Either all descriptions have plans, or there is a first one that has none. -/
theorem builds_or_firstRefuses (host : Host α V M) (c : ChainSpec α) (cfg : Config)
    (clock : Clock α) (w : World α V M) :
    (∃ plans, List.Forall₂ (fun s p => (s.plan cfg clock none none).outcome = .ok p) c plans) ∨
      ∃ i s e, host.FirstRefuses cfg clock w c i s e := by
  induction c with
  | nil => exact .inl ⟨[], .nil⟩
  | cons s rest ih =>
      cases hs : (s.plan cfg clock none none).outcome with
      | error e => exact .inr ⟨0, s, e, rfl, by simp, Host.refuses_iff.mpr hs⟩
      | ok p =>
          have hbuilds : host.Builds cfg clock w s := Host.builds_iff.mpr ⟨p, hs⟩
          rcases ih with ⟨plans, hplans⟩ | ⟨i, x, e, hfirst⟩
          · exact .inl ⟨p :: plans, .cons hs hplans⟩
          · refine .inr ⟨i + 1, x, e, hfirst.found, ?_, hfirst.fails⟩
            simpa [hbuilds] using hfirst.earlier

/-- Building descriptions one after the other makes what installing their plans makes. -/
theorem yields_buildEach (host : Host α V M) {c : ChainSpec α} {plans : List (Plan α)}
    (h : List.Forall₂ (fun s p => (s.plan cfg clock none none).outcome = .ok p) c plans) :
    ∃ w', (Routine.buildEach cfg clock c).perform.Yields host w
        (.ok (Plan.installAll plans w.scene).1) w' ∧
      w'.scene = (Plan.installAll plans w.scene).2 := by
  induction h generalizing w with
  | nil => exact ⟨w, yields_done.mpr ⟨rfl, rfl⟩, rfl⟩
  | @cons s p rest plans hplan _ ih =>
      obtain ⟨w₁, hbuild, hscene⟩ : ∃ w₁,
          host.Answers (.build s cfg clock none) w (.ok (p.install w.scene).1) w₁ ∧
            w₁.scene = (p.install w.scene).2 := by
        refine ⟨(w.install (s.plan cfg clock none none) Plan.install).2, ?_, ?_⟩
        · exact answers_build.mpr (by simp only [World.install, hplan])
        · simp only [World.install, hplan]; rfl
      obtain ⟨w₂, heach, hscene₂⟩ := ih (w := w₁)
      rw [hscene] at heach hscene₂
      refine ⟨w₂, yields_call.mpr ⟨_, w₁, hbuild, ?_⟩, hscene₂⟩
      show ((Routine.buildEach cfg clock rest).bind fun ids => _).perform.Yields host w₁ _ w₂
      rw [Routine.perform_bind]
      exact heach.bind (yields_done.mpr ⟨rfl, rfl⟩)

theorem yields_buildApart (host : Host α V M) {c : ChainSpec α} {plans : List (Plan α)}
    (h : List.Forall₂ (fun s p => (s.plan cfg clock none none).outcome = .ok p) c plans) :
    ∃ w', (Routine.buildApart cfg clock c).perform.Yields host w
        (.ok (Plan.installChain plans w.scene).1) w' ∧
      w'.scene = (Plan.installChain plans w.scene).2 := by
  obtain ⟨w₁, heach, hscene⟩ := yields_buildEach host (w := w) h
  obtain ⟨w₂, hadd, hscene₂⟩ : ∃ w₂,
      host.Answers (.add (.chain (Plan.installAll plans w.scene).1)) w₁
        (Plan.installChain plans w.scene).1 w₂ ∧
      w₂.scene = (Plan.installChain plans w.scene).2 := by
    simp only [Plan.installChain, ← hscene]
    exact ⟨_, answers_add.mpr ⟨rfl, rfl⟩, rfl⟩
  refine ⟨w₂, ?_, hscene₂⟩
  show ((Routine.buildEach cfg clock c).bind fun built => _).perform.Yields host w _ w₂
  rw [Routine.perform_bind]
  exact heach.bind (yields_call.mpr ⟨_, w₂, hadd, yields_done.mpr ⟨rfl, rfl⟩⟩)

/-! ## Chains of segments -/

theorem ChainSpec.plans_of_ne_nil {c : ChainSpec α} (h : c ≠ []) (current : Option α) :
    c.plans cfg clock current = plansFrom cfg clock 0 current none c := by
  cases c with
  | nil => exact absurd rfl h
  | cons s rest => rfl

theorem ChainSpec.filled_ne_nil {c : ChainSpec α} (h : c ≠ []) (current : Option α) :
    c.filled clock current ≠ [] := by
  cases c with
  | nil => exact absurd rfl h
  | cons s rest => simp [filled, filledFrom]

variable {c : ChainSpec α} {current : Option α}

/-- A chain whose filled segments have plans is the chain of these plans. -/
theorem answers_buildChain_of_plans (nonempty : c ≠ []) {plans : List (Plan α)}
    (h : List.Forall₂ (fun s p => (s.plan cfg clock none none).outcome = .ok p)
      (c.filled clock current) plans) {r : Except (Error α) AnimationId} :
    host.Answers (.buildChain c cfg clock current) w r w' ↔
      (r, w') = w.install ⟨ChainSpec.settledNotes clock 0 (c.filled clock current), .ok plans⟩
        Plan.installChain := by
  rw [answers_buildChain, ChainSpec.plans_of_ne_nil nonempty, ChainSpec.plansFrom_eq_ok h]
  rfl

/-- A chain fails with the first of its segments that fails, whatever comes after. -/
theorem answers_buildChain_of_firstRefuses {i : Nat} {s : Spec α} {e : Error α}
    (h : host.FirstRefuses cfg clock w (c.filled clock current) i s e) (rest : ChainSpec α) :
    host.Answers (.buildChain (c.take (i + 1) ++ rest) cfg clock current) w (.error e)
      (w.record ((ChainSpec.settledNotes clock 0 ((c.filled clock current).take i) ++
        s.windowNotes clock).map .noted)) := by
  have nonempty : c.take (i + 1) ++ rest ≠ [] := by
    rintro hnil
    obtain rfl : c = [] := by simpa using (List.append_eq_nil_iff.mp hnil).1
    exact absurd h.found (by simp [ChainSpec.filled, ChainSpec.filledFrom])
  rw [answers_buildChain, ChainSpec.plans_of_ne_nil nonempty,
    ChainSpec.plansFrom_eq_error (fun x hx => Host.builds_iff.mp (h.earlier x hx)) h.found
      (Host.refuses_iff.mp h.fails)]
  rfl

theorem Host.FirstRefuses.not_builds {i : Nat} {s : Spec α} {e : Error α}
    (h : host.FirstRefuses cfg clock w c i s e) : ¬ ∀ x ∈ c, host.Builds cfg clock w x := by
  intro hall
  obtain ⟨p, hp⟩ := Host.builds_iff.mp (hall s (List.mem_of_getElem? h.found))
  rw [Host.refuses_iff.mp h.fails] at hp
  cases hp

/-- A chain that was built is the chain of the plans of its filled segments. -/
theorem plans_of_buildChain {a : AnimationId}
    (h : host.Answers (.buildChain c cfg clock current) w (.ok a) w') :
    c ≠ [] ∧ ∃ plans,
      List.Forall₂ (fun s p => (s.plan cfg clock none none).outcome = .ok p)
        (c.filled clock current) plans ∧
      a = (Plan.installChain plans w.scene).1 ∧
      w'.scene = (Plan.installChain plans w.scene).2 := by
  have nonempty : c ≠ [] := by
    rintro rfl
    cases answers_buildChain.mp h
  refine ⟨nonempty, ?_⟩
  rcases builds_or_firstRefuses host (c.filled clock current) cfg clock w with
    ⟨plans, hplans⟩ | ⟨i, s, e, hfirst⟩
  · cases (answers_buildChain_of_plans nonempty hplans).mp h
    exact ⟨plans, hplans, rfl, rfl⟩
  · have hfails := answers_buildChain_of_firstRefuses hfirst (c.drop (i + 1))
    rw [List.take_append_drop] at hfails
    cases (h.unique hfails).1

/-- **A chain is built out of its segments alone.** Let every segment take over the start and the
opening that it misses from the one before it. The chain can be built just when each of these
segments can be built alone, and then it is the chain of what they are built into. The filled
segments make the same chain again. Otherwise the chain fails with the error of the first one that
fails alone, whatever comes after it. In either case the notes are those of the segments in their
order, and a segment that fails leaves at most the note of its window. -/
theorem chain_built_from_segments (host : Host α V M) (nonempty : c ≠ []) (cfg : Config)
    (clock : Clock α) (current : Option α) (w : World α V M) :
    let segments := c.filled clock current
    ((∃ a w', host.Answers (.buildChain c cfg clock current) w (.ok a) w') ↔
      ∀ s ∈ segments, host.Builds cfg clock w s) ∧
    (∀ a w', host.Answers (.buildChain c cfg clock current) w (.ok a) w' →
      w' = (w.record ((ChainSpec.settledNotes clock 0 segments).map .noted)).grow w'.scene ∧
      ∃ w₁, (Routine.buildApart cfg clock segments).perform.Yields host w (.ok a) w₁ ∧
        w₁.scene = w'.scene) ∧
    (∀ again, again = current ∨ again = none → ∀ r w',
      host.Answers (.buildChain segments cfg clock again) w r w' ↔
        host.Answers (.buildChain c cfg clock current) w r w') ∧
    ((¬ ∀ s ∈ segments, host.Builds cfg clock w s) →
      ∃ i s e, host.FirstRefuses cfg clock w segments i s e ∧
        ∀ rest, host.Answers (.buildChain (c.take (i + 1) ++ rest) cfg clock current) w (.error e)
          (w.record ((ChainSpec.settledNotes clock 0 (segments.take i) ++
            s.windowNotes clock).map .noted))) := by
  intro segments
  have again : ∀ again, again = current ∨ again = none → ∀ r w',
      host.Answers (.buildChain segments cfg clock again) w r w' ↔
        host.Answers (.buildChain c cfg clock current) w r w' := by
    intro again hagain r w'
    rw [answers_buildChain, answers_buildChain, ChainSpec.plans_of_ne_nil nonempty,
      ChainSpec.plans_of_ne_nil (ChainSpec.filled_ne_nil nonempty current), ChainSpec.filled,
      ChainSpec.plansFrom_filledFrom c hagain (.inl rfl)]
  rcases builds_or_firstRefuses host segments cfg clock w with ⟨plans, hplans⟩ | ⟨i, s, e, hfirst⟩
  · have hall : ∀ s ∈ segments, host.Builds cfg clock w s := by
      refine ((List.forall₂_and_left _ _).mp (hplans.imp fun s p hp => ⟨?_, hp⟩)).1
      exact Host.builds_iff.mpr ⟨p, hp⟩
    refine ⟨⟨fun _ => hall, fun _ => ?_⟩, ?_, again, fun hnot => absurd hall hnot⟩
    · exact ⟨_, _, (answers_buildChain_of_plans nonempty hplans).mpr rfl⟩
    · intro a w' h
      obtain ⟨w₁, hapart, hscene⟩ := yields_buildApart host (w := w) hplans
      have hinstall := (answers_buildChain_of_plans nonempty hplans).mp h
      cases hinstall
      exact ⟨rfl, w₁, hapart, hscene⟩
  · have herror := answers_buildChain_of_firstRefuses hfirst
    have hnever : ∀ a w', ¬ host.Answers (.buildChain c cfg clock current) w (.ok a) w' := by
      intro a w' h
      have hfails := herror (c.drop (i + 1))
      rw [List.take_append_drop] at hfails
      cases (h.unique hfails).1
    refine ⟨⟨?_, fun hall => absurd hall hfirst.not_builds⟩, ?_, again, fun _ => ?_⟩
    · rintro ⟨a, w', h⟩
      exact absurd h (hnever a w')
    · intro a w' h
      exact absurd h (hnever a w')
    · exact ⟨i, s, e, hfirst, herror⟩

end Chains

namespace Relay

/-! Three segments, the second of which does not follow the clock. The first one hands it an opening
for which it has no use, and the third one gets none. -/

def vocabulary : Vocabulary := ⟨Empty, Empty, Empty⟩

def host : Host Float vocabulary Unit := ⟨Empty.elim, Empty.elim, Empty.elim⟩

def chain : ChainSpec Float :=
  [⟨{ start := some 0.0, finish := some 10.0, lasts := some 2.0 }, .clock⟩,
    ⟨{ finish := some 20.0 }, .fixed 0.5⟩,
    ⟨{ finish := some 5.0, closes := some 9.0, lasts := some 4.0 }, .clock⟩]

def segments : ChainSpec Float :=
  [⟨{ start := some 0.0, finish := some 10.0, lasts := some 2.0 }, .clock⟩,
    ⟨{ start := some 10.0, finish := some 20.0, opens := some 3.0 }, .fixed 0.5⟩,
    ⟨{ start := some 20.0, finish := some 5.0, closes := some 9.0, lasts := some 4.0 }, .clock⟩]

/-- The third segment opens by its own length. -/
theorem third_opens_by_length :
    ∃ a w', host.Answers (.buildChain chain {} (.startingAt 1.0) none) { memory := () } (.ok a) w' ∧
      w' = (({ memory := () } : World Float vocabulary Unit).record
        [.noted (.windowResolved 1.0 3.0), .noted (.handedOff 0 10.0 (some 3.0)),
          .noted (.handedOff 1 20.0 none), .noted (.windowResolved 5.0 9.0),
          .noted (.handedOff 2 5.0 (some 9.0))]).grow w'.scene := by
  have hsegments : chain.filled (.startingAt 1.0) none = segments := by decide +kernel
  have hnotes : (ChainSpec.settledNotes (.startingAt 1.0) 0 segments) =
      [.windowResolved 1.0 3.0, .handedOff 0 10.0 (some 3.0), .handedOff 1 20.0 none,
        .windowResolved 5.0 9.0, .handedOff 2 5.0 (some 9.0)] := by
    decide +kernel
  obtain ⟨hbuilds, hbuilt, -⟩ := chain_built_from_segments host (c := chain) (by decide +kernel) {}
    (.startingAt 1.0) none { memory := () }
  rw [hsegments] at hbuilds hbuilt
  rw [hnotes] at hbuilt
  obtain ⟨a, w', h⟩ := hbuilds.mpr (by
    simp only [segments, List.forall_mem_cons]
    exact ⟨⟨_, _, 1, rfl⟩, ⟨_, _, 1, rfl⟩, ⟨_, _, 1, rfl⟩, by simp⟩)
  exact ⟨a, w', h, (hbuilt a w' h).1⟩

end Relay

end Inbetween
