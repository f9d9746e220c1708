import Inbetween.World.Evaluate
import Inbetween.Proofs.Whole

/-!
# Chains of vectors

A vector moves one component at a time. Each segment of its chain is split into one description for
each component, which makes a row, and the chains of the components are the columns of these rows.
Nothing is lost, doubled or exchanged on the way: the columns of the columns are the rows again, and
the chain of a component is the one that could have been written for this component alone.
-/

namespace Inbetween

namespace ChainSpec

variable {α β : Type}

/-! ## Columns -/

/-- What is found in row `i` at place `j`. -/
def entry (rows : List (List β)) (i j : Nat) : Option β := rows[i]?.bind (·[j]?)

theorem eq_of_entry {rows rows' : List (List β)} (hlength : rows.length = rows'.length)
    (h : ∀ i j, entry rows i j = entry rows' i j) : rows = rows' := by
  apply List.ext_getElem hlength
  intro i hi hi'
  apply List.ext_getElem?
  intro j
  have hij := h i j
  rwa [entry, entry, List.getElem?_eq_getElem hi, List.getElem?_eq_getElem hi'] at hij

theorem length_of_mem_columns {width : Nat} {rows : List (List β)} :
    ∀ column ∈ columns width rows, column.length = rows.length := by
  induction rows with
  | nil =>
      intro column hcolumn
      rw [List.eq_of_mem_replicate hcolumn]
      rfl
  | cons row rows ih =>
      intro column hcolumn
      obtain ⟨j, hj, rfl⟩ := List.getElem_of_mem hcolumn
      simp only [columns, List.getElem_zipWith, List.length_cons]
      rw [ih _ (List.getElem_mem _)]

/-- Rows and columns change places. -/
theorem entry_columns {width : Nat} {rows : List (List β)} (h : ∀ row ∈ rows, row.length = width)
    (i j : Nat) : entry (columns width rows) j i = entry rows i j := by
  induction rows generalizing i with
  | nil =>
      rw [entry, columns, List.getElem?_replicate]
      split <;> rfl
  | cons row rows ih =>
      obtain ⟨hrow, hrows⟩ := List.forall_mem_cons.mp h
      have hlength := length_columns width rows hrows
      have hentry (i : Nat) : (columns width rows)[j]?.bind (·[i]?) = entry rows i j := ih hrows i
      rw [entry, columns, List.getElem?_zipWith']
      rcases Nat.lt_or_ge j width with hj | hj
      · have hplace : row[j]? = some row[j] := List.getElem?_eq_getElem _
        have hcolumn : j < (columns width rows).length := by omega
        rw [List.getElem?_eq_getElem hcolumn] at hentry ⊢
        cases i with
        | zero => rw [entry, List.getElem?_cons_zero, Option.bind_some, hplace]; rfl
        | succ i => rw [hplace]; exact hentry i
      · -- No row has a place `j`, so there is no such column.
        have hplace : row[j]? = none := List.getElem?_eq_none (by omega)
        rw [List.getElem?_eq_none (by omega)] at hentry
        rw [hplace]
        cases i with
        | zero => exact hplace.symm
        | succ i => exact hentry i

theorem columns_columns {width : Nat} {rows : List (List β)}
    (h : ∀ row ∈ rows, row.length = width) :
    columns rows.length (columns width rows) = rows := by
  have hcolumns : ∀ column ∈ columns width rows, column.length = rows.length :=
    length_of_mem_columns
  apply eq_of_entry (length_columns _ _ hcolumns)
  intro i j
  rw [entry_columns hcolumns, entry_columns h]

theorem columns_ofFn {γ : Type} {width : Nat} (f : γ → Fin width → β) (cs : List γ) :
    columns width (cs.map fun c => List.ofFn (f c)) = List.ofFn fun j => cs.map (f · j) := by
  have hrows : ∀ row ∈ cs.map fun c => List.ofFn (f c), row.length = width := by simp
  apply eq_of_entry
  · rw [length_columns _ _ hrows, List.length_ofFn]
  · intro j i
    rw [entry_columns hrows, entry, entry, List.getElem?_map, List.getElem?_ofFn]
    by_cases hj : j < width <;> cases h : cs[i]? <;> simp [hj, h]

/-! ## Chains of the components -/

/-- The chains are those of the components in rows of a common width. -/
structure Components (width : Nat) (rows : List (List (Spec α))) (chains : List (ChainSpec α)) :
    Prop where
  count : chains.length = width
  length : ∀ chain ∈ chains, chain.length = rows.length
  entries : ∀ i j, entry chains j i = entry rows i j

theorem find?_of_width {width : Nat} {rows : List (List β)}
    (h : ∀ row ∈ rows, row.length = width) :
    rows.find? (fun row => row.length != width) = none := by
  rw [List.find?_eq_none]
  intro row hrow
  rw [h row hrow, bne_self_eq_false]
  exact Bool.false_ne_true

theorem perComponent_of_mismatch {first row : List (Spec α)} {before after : List (List (Spec α))}
    (hbefore : ∀ r ∈ before, r.length = first.length) (hrow : row.length ≠ first.length) :
    perComponent (first :: (before ++ row :: after)) =
      .error (.lengthMismatch first.length row.length) := by
  have hfound : (row.length != first.length) = true := bne_iff_ne.mpr hrow
  simp only [perComponent, List.find?_append, find?_of_width hbefore, Option.none_or,
    List.find?_cons, hfound]

theorem perComponent_of_width {width : Nat} {rows : List (List (Spec α))} (hrows : rows ≠ [])
    (h : ∀ row ∈ rows, row.length = width) : perComponent rows = .ok (columns width rows) := by
  cases rows with
  | nil => exact absurd rfl hrows
  | cons first rest =>
      obtain ⟨rfl, hrest⟩ := List.forall_mem_cons.mp h
      simp only [perComponent, find?_of_width hrest]

end ChainSpec

/-! ## Segments of vectors -/

/-- The sides of a segment that a vector gives, at least one of the two. -/
inductive Sides (α : Type) (width : Nat) where
  | starts (xs : Vector α width)
  | finishes (ys : Vector α width)
  | both (xs ys : Vector α width)

/-- A segment that all components share but for the sides. -/
structure VectorSegment (α : Type) (width : Nat) where
  base : Spec α
  sides : Sides α width

namespace VectorSegment

variable {α : Type} {width : Nat}

/-- The row of a segment. -/
def split (g : VectorSegment α width) : Except (Error α) (List (Spec α)) :=
  match g.sides with
  | .starts xs => g.base.perComponent (some xs.toList) none
  | .finishes ys => g.base.perComponent none (some ys.toList)
  | .both xs ys => g.base.perComponent (some xs.toList) (some ys.toList)

/-- The segment as it is written for a single component. -/
def component (g : VectorSegment α width) (j : Fin width) : Spec α :=
  match g.sides with
  | .starts xs => g.base.withStart xs[j]
  | .finishes ys => g.base.withFinish ys[j]
  | .both xs ys => (g.base.withStart xs[j]).withFinish ys[j]

theorem split_eq (g : VectorSegment α width) : g.split = .ok (List.ofFn g.component) := by
  obtain ⟨base, sides⟩ := g
  cases sides with
  | starts xs =>
      apply congrArg Except.ok
      apply List.ext_getElem
      · simp
      · intro j hj _
        simp [component, Spec.component, Spec.withStart]
  | finishes ys =>
      apply congrArg Except.ok
      apply List.ext_getElem
      · simp
      · intro j hj _
        simp [component, Spec.component, Spec.withFinish]
  | both xs ys =>
      simp only [split, Spec.perComponent, Vector.length_toList, if_true]
      apply congrArg Except.ok
      apply List.ext_getElem
      · simp
      · intro j hj _
        simp [component, Spec.component, Spec.withStart, Spec.withFinish]

theorem mapM_split (segments : List (VectorSegment α width)) :
    segments.mapM split = .ok (segments.map fun g => List.ofFn g.component) := by
  induction segments with
  | nil => rfl
  | cons g segments ih =>
      rw [List.mapM_cons, g.split_eq, ih]
      rfl

/-- The chains of a vector, from its segments. -/
def chains (segments : List (VectorSegment α width)) : Except (Error α) (List (ChainSpec α)) := do
  ChainSpec.perComponent (← segments.mapM split)

theorem chains_eq {segments : List (VectorSegment α width)} (h : segments ≠ []) :
    chains segments = .ok (List.ofFn fun j => segments.map (·.component j)) := by
  have hrows : (segments.map fun g => List.ofFn g.component) ≠ [] := mt List.map_eq_nil_iff.mp h
  have hwidth : ∀ row ∈ segments.map fun g => List.ofFn g.component, row.length = width := by simp
  calc chains segments
      = ChainSpec.perComponent (segments.map fun g => List.ofFn g.component) := by
        rw [chains, mapM_split]; rfl
    _ = .ok (ChainSpec.columns width (segments.map fun g => List.ofFn g.component)) :=
        ChainSpec.perComponent_of_width hrows hwidth
    _ = .ok (List.ofFn fun j => segments.map (·.component j)) := by
        rw [ChainSpec.columns_ofFn]

end VectorSegment

/-! ## Components of vectors -/

/-- Without rows there is no chain, and rows of different widths are refused at the first that
differs from the one in front. Rows of one width give the chains of their components, and these give
the rows again unless there is no component at all. So a component of a vector is built as the chain
that is written for it alone, whatever is done with it then. -/
theorem chains_by_component {α : Type} [Scalar α] :
    ChainSpec.perComponent ([] : List (List (Spec α))) = .error .emptyChain ∧
    (∀ (first row : List (Spec α)) (before after : List (List (Spec α))),
      (∀ r ∈ before, r.length = first.length) → row.length ≠ first.length →
      ChainSpec.perComponent (first :: (before ++ row :: after)) =
        .error (.lengthMismatch first.length row.length)) ∧
    (∀ (first : List (Spec α)) (rest : List (List (Spec α))),
      (∀ row ∈ rest, row.length = first.length) →
      ∃ chains, ChainSpec.perComponent (first :: rest) = .ok chains ∧
        ChainSpec.Components first.length (first :: rest) chains ∧
        (0 < first.length → ChainSpec.perComponent chains = .ok (first :: rest))) ∧
    (∀ width, VectorSegment.chains ([] : List (VectorSegment α width)) = .error .emptyChain) ∧
    ∀ (width : Nat) (segments : List (VectorSegment α width)), segments ≠ [] →
      ∃ chains, VectorSegment.chains segments = .ok chains ∧ chains.length = width ∧
        ∀ j : Fin width, chains[j]? = some (segments.map (·.component j)) ∧
          ∀ chain ∈ chains[j]?, ∀ {V : Vocabulary} {M β : Type} (host : Host α V M) (cfg : Config)
            (clock : Clock α) (current : Option α)
            (next : Except (Error α) AnimationId → Routine α V M β) (depth : Nat)
            (w : World α V M),
            host.run depth (.call (.buildChain chain cfg clock current) next) w =
              host.run depth
                (.call (.buildChain (segments.map (·.component j)) cfg clock current) next) w := by
  refine ⟨rfl, fun _ _ _ _ => ChainSpec.perComponent_of_mismatch, ?_, fun _ => rfl, ?_⟩
  · intro first rest hrest
    have hrows : ∀ row ∈ first :: rest, row.length = first.length :=
      List.forall_mem_cons.mpr ⟨rfl, hrest⟩
    have hcolumns : ∀ column ∈ ChainSpec.columns first.length (first :: rest),
        column.length = (first :: rest).length := ChainSpec.length_of_mem_columns
    have hcount := ChainSpec.length_columns _ _ hrows
    refine ⟨_, ChainSpec.perComponent_of_width (List.cons_ne_nil _ _) hrows,
      ⟨hcount, hcolumns, fun i j => ChainSpec.entry_columns hrows i j⟩, ?_⟩
    intro hpos
    have hsome : ChainSpec.columns first.length (first :: rest) ≠ [] :=
      List.ne_nil_of_length_pos (hcount.symm ▸ hpos)
    rw [ChainSpec.perComponent_of_width hsome hcolumns, ChainSpec.columns_columns hrows]
  · intro width segments hsegments
    refine ⟨_, VectorSegment.chains_eq hsegments, List.length_ofFn, ?_⟩
    intro j
    have hj : (List.ofFn fun j => segments.map (·.component j))[j]? =
        some (segments.map (·.component j)) := by simp
    refine ⟨hj, ?_⟩
    intro chain hchain
    obtain rfl := Option.some.inj (hj.symm.trans hchain)
    intros
    rfl

/-- A point that goes round a square in four steps. -/
def squareSegments : List (VectorSegment Int 2) :=
  [#v[10, 0], #v[10, 10], #v[0, 10], #v[0, 0]].map fun corner =>
    ⟨Spec.lerp.withLasts 10, .finishes corner⟩

/-- The first component of the square goes out and comes back, and a row that is too short after two
that fit is refused. -/
theorem square_by_component :
    (∃ chains, VectorSegment.chains squareSegments = .ok chains ∧
      chains[0]? = some ([10, 10, 0, 0].map (Spec.lerp.withLasts 10).withFinish)) ∧
    ChainSpec.perComponent (α := Int) [[.lerp, .lerp], [.lerp, .lerp], [.lerp]] =
      .error (.lengthMismatch 2 1) ∧
    ∃ chains, ChainSpec.perComponent (α := Int) [[.lerp, .lerp], [.withEasing .inOutQuad, .lerp]] =
        .ok chains ∧
      ChainSpec.perComponent chains = .ok [[.lerp, .lerp], [.withEasing .inOutQuad, .lerp]] := by
  obtain ⟨-, hmismatch, hrows, -, hsegments⟩ := chains_by_component (α := Int)
  refine ⟨?_, ?_, ?_⟩
  · obtain ⟨chains, hchains, -, hcomponent⟩ := hsegments 2 squareSegments (by decide)
    exact ⟨chains, hchains, (hcomponent 0).1⟩
  · exact hmismatch _ _ [[Spec.lerp, Spec.lerp]] [] (by decide) (by decide)
  · obtain ⟨chains, hchains, -, hback⟩ :=
      hrows [.lerp, .lerp] [[.withEasing .inOutQuad, .lerp]] (by decide)
    exact ⟨chains, hchains, hback (by decide)⟩

end Inbetween
