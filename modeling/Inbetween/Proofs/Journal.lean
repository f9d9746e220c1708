import Inbetween.World.Journal
import Mathlib.Data.List.Induction

/-!
# What the journal tells

Reads and samples begin and finish, and the journal says when. So at each moment one can tell from
it what is under way, and what has happened since that began.
-/

namespace Inbetween

variable {α : Type} {V : Vocabulary}

section UnderWay

variable (begins finishes : Event α V → Bool)

/-- One more event. It ends what was begun last, belongs to the time since the rest was begun, and
may itself begin something. -/
def underWayStep (since : List (List (Event α V))) (e : Event α V) : List (List (Event α V)) :=
  let rest := (if finishes e then since.tail else since).map (· ++ [e])
  if begins e then [] :: rest else rest

/-- What has been begun and is not finished, innermost first. Each of these stands for itself by the
events that have happened since it was begun. -/
def underWay (j : List (Event α V)) : List (List (Event α V)) :=
  j.foldl (underWayStep begins finishes) []

@[simp] theorem underWay_nil : underWay begins finishes [] = [] := rfl

theorem underWay_snoc (j : List (Event α V)) (e : Event α V) :
    underWay begins finishes (j ++ [e]) =
      underWayStep begins finishes (underWay begins finishes j) e := by
  simp [underWay]

variable {begins finishes}

theorem underWay_begin {e : Event α V} (hb : begins e = true) (hf : finishes e = false)
    (j : List (Event α V)) :
    underWay begins finishes (j ++ [e]) =
      [] :: (underWay begins finishes j).map (· ++ [e]) := by
  rw [underWay_snoc]
  simp [underWayStep, hb, hf]

theorem underWay_finish {e : Event α V} (hb : begins e = false) (hf : finishes e = true)
    (j : List (Event α V)) :
    underWay begins finishes (j ++ [e]) =
      (underWay begins finishes j).tail.map (· ++ [e]) := by
  rw [underWay_snoc]
  simp [underWayStep, hb, hf]

/-- Events that neither begin nor finish anything. -/
theorem underWay_append (j es : List (Event α V))
    (h : ∀ e ∈ es, begins e = false ∧ finishes e = false) :
    underWay begins finishes (j ++ es) = (underWay begins finishes j).map (· ++ es) := by
  induction es using List.reverseRecOn with
  | nil => simp
  | append_singleton es e ih =>
      have he := h e (by simp)
      rw [← List.append_assoc, underWay_snoc,
        ih fun e he => h e (List.mem_append_left _ he)]
      simp [underWayStep, he.1, he.2]

/-- What stands for something under way is the journal since an event by which it was begun. -/
theorem exists_begin_of_mem_underWay {j since : List (Event α V)}
    (h : since ∈ underWay begins finishes j) :
    ∃ before e, j = before ++ e :: since ∧ begins e = true := by
  induction j using List.reverseRecOn generalizing since with
  | nil => simp at h
  | append_singleton j e ih =>
      have hrest : ∀ earlier ∈ underWay begins finishes j,
          ∃ before e', j ++ [e] = before ++ e' :: (earlier ++ [e]) ∧ begins e' = true := by
        intro earlier hmem
        obtain ⟨before, e', hj, he'⟩ := ih hmem
        exact ⟨before, e', by simp [hj], he'⟩
      -- Whether or not the event finishes something, the rest was under way before it.
      have hmem : ∀ since ∈ (if finishes e then (underWay begins finishes j).tail
          else underWay begins finishes j).map (· ++ [e]),
          ∃ before e', j ++ [e] = before ++ e' :: since ∧ begins e' = true := by
        intro since hs
        obtain ⟨earlier, hmem, rfl⟩ := List.mem_map.mp hs
        split at hmem
        · exact hrest earlier (List.mem_of_mem_tail hmem)
        · exact hrest earlier hmem
      rw [underWay_snoc, underWayStep] at h
      split at h
      · rename_i he
        rcases List.mem_cons.mp h with rfl | h
        · exact ⟨j, e, rfl, he⟩
        · exact hmem since h
      · exact hmem since h

end UnderWay

end Inbetween
