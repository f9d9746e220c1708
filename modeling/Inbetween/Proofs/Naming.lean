import Inbetween.Proofs.Spellings

/-!
# Finding modes by name

A text names a mode if it is one of the names of the mode between blanks, in any case. The names
that authors give to easings follow a rule: a side, then a shape. Looking a name up follows no such
rule. It takes the name apart from the front, where `in_` is also how `in_out_` begins, and searches
the canonical names for what it has found. Both come to the same, and no name is given to two modes.
-/

namespace Inbetween

/-! ## Names between blanks -/

namespace Text

/-- The text is a name with blanks around it, in which letters may have been raised. No blank is
part of the name at its ends. -/
def Pads (name s : String) : Prop :=
  ∃ before core after, s.toList = before ++ (core ++ after) ∧
    (∀ c ∈ before ++ after, isBlank c = true) ∧
    (∀ c ∈ core.head?, isBlank c = false) ∧ (∀ c ∈ core.getLast?, isBlank c = false) ∧
    core.map Char.toLower = name.toList

theorem dropWhile_isBlank_of_head {cs : List Char} (h : ∀ c ∈ cs.head?, isBlank c = false) :
    cs.dropWhile isBlank = cs := by
  cases cs with
  | nil => rfl
  | cons c cs => exact List.dropWhile_cons_of_neg (Bool.not_eq_true _ ▸ h c rfl)

/-- What begins and ends without a blank is left alone. -/
theorem trim_of_bare {cs : List Char} (head : ∀ c ∈ cs.head?, isBlank c = false)
    (last : ∀ c ∈ cs.getLast?, isBlank c = false) : trim cs = cs := by
  rw [trim, dropWhile_isBlank_of_head head, dropWhile_isBlank_of_head, List.reverse_reverse]
  rwa [List.head?_reverse]

theorem head_dropWhile_isBlank (cs : List Char) :
    ∀ c ∈ (cs.dropWhile isBlank).head?, isBlank c = false := by
  intro c hc
  have hnot := List.head?_dropWhile_not isBlank cs
  rw [Option.mem_def.mp hc] at hnot
  simpa using hnot

/-- Every text is its trimmed part between blanks. -/
theorem exists_trim (cs : List Char) :
    ∃ before after, cs = before ++ (trim cs ++ after) ∧
      (∀ c ∈ before ++ after, isBlank c = true) ∧
      (∀ c ∈ (trim cs).head?, isBlank c = false) ∧
      ∀ c ∈ (trim cs).getLast?, isBlank c = false := by
  let rest := cs.dropWhile isBlank
  have hrest : rest = trim cs ++ (rest.reverse.takeWhile isBlank).reverse := by
    rw [trim, ← List.reverse_append, List.takeWhile_append_dropWhile, List.reverse_reverse]
  refine ⟨cs.takeWhile isBlank, (rest.reverse.takeWhile isBlank).reverse, ?_, ?_, ?_, ?_⟩
  · rw [← hrest, List.takeWhile_append_dropWhile]
  · intro c hc
    rcases List.mem_append.mp hc with hc | hc
    · exact List.all_eq_true.mp List.all_takeWhile c hc
    · exact List.all_eq_true.mp List.all_takeWhile c (List.mem_reverse.mp hc)
  · -- The trimmed part begins where the rest begins.
    intro c hc
    apply head_dropWhile_isBlank cs c
    show c ∈ rest.head?
    rw [hrest, List.head?_append, Option.mem_def.mp hc]
    rfl
  · intro c hc
    rw [trim, List.getLast?_reverse] at hc
    exact head_dropWhile_isBlank _ c hc

theorem pads_iff {name s : String} : Pads name s ↔ plain s = name := by
  constructor
  · rintro ⟨before, core, after, hs, blank, head, last, hname⟩
    obtain ⟨hbefore, hafter⟩ := List.forall_mem_append.mp blank
    rw [plain, plainName, hs, trim_append_left hbefore, trim_append_right hafter,
      trim_of_bare head last, hname, String.ofList_toList]
  · rintro rfl
    obtain ⟨before, after, hs, blank, head, last⟩ := exists_trim s.toList
    exact ⟨before, trim s.toList, after, hs, blank, head, last, String.toList_ofList.symm⟩

/-- Padding and raised letters do not hide a name. -/
theorem plain_padded {name : String} {before core after : List Char}
    (blank : ∀ c ∈ before ++ after, isBlank c = true)
    (letters : core.map Char.toLower = name.toList) (bare : trim name.toList = name.toList) :
    plain (String.ofList (before ++ (core ++ after))) = name := by
  obtain ⟨hbefore, hafter⟩ := List.forall_mem_append.mp blank
  rw [plain, plainName, String.toList_ofList, trim_append_left hbefore, trim_append_right hafter,
    ← trim_map_toLower, letters, bare, String.ofList_toList]

end Text

/-! ## Names of easings -/

namespace Easing

/-- The shapes of the curves that ease on one side or on both. -/
inductive Shape where
  | sine
  | quad
  | cubic
  | circ
  | back
  | bounce
  deriving DecidableEq, Repr

/-- Where a curve eases. -/
inductive Side where
  | start
  | finish
  | both
  deriving DecidableEq, Repr

def Shape.all : List Shape := [.sine, .quad, .cubic, .circ, .back, .bounce]

def Side.all : List Side := [.start, .finish, .both]

def Shape.name : Shape → String
  | .sine => "sine"
  | .quad => "quad"
  | .cubic => "cubic"
  | .circ => "circ"
  | .back => "back"
  | .bounce => "bounce"

/-- How authors say where a curve eases. Without a side it eases on both. -/
def Side.leads : Side → List String
  | .start => ["ease_in_"]
  | .finish => ["ease_out_"]
  | .both => ["ease_", "ease_in_out_"]

def Shape.mode : Shape → Side → Easing
  | .sine, .start => .inSine
  | .sine, .finish => .outSine
  | .sine, .both => .inOutSine
  | .quad, .start => .inQuad
  | .quad, .finish => .outQuad
  | .quad, .both => .inOutQuad
  | .cubic, .start => .inCubic
  | .cubic, .finish => .outCubic
  | .cubic, .both => .inOutCubic
  | .circ, .start => .inCirc
  | .circ, .finish => .outCirc
  | .circ, .both => .inOutCirc
  | .back, .start => .inBack
  | .back, .finish => .outBack
  | .back, .both => .inOutBack
  | .bounce, .start => .inBounce
  | .bounce, .finish => .outBounce
  | .bounce, .both => .inOutBounce

/-- The names that are given to modes: a canonical one for each, two of their own, and those that
are made of a side and a shape. -/
inductive Named : Easing → String → Prop
  | canonical (mode : Easing) : Named mode mode.name
  | lerp : Named .linear "lerp"
  | exponential : Named .exponential "ease_in_exponential"
  | sided (shape : Shape) {side : Side} {lead : String} (h : lead ∈ side.leads) :
      Named (shape.mode side) (lead ++ shape.name)

theorem Shape.mem_all (shape : Shape) : shape ∈ all := by
  cases shape <;> decide

theorem Side.mem_all (side : Side) : side ∈ all := by
  cases side <;> decide

theorem name_mem_names : ∀ mode ∈ all, mode.name ∈ mode.names := by
  decide +kernel

theorem sided_mem_names : ∀ shape ∈ Shape.all, ∀ side ∈ Side.all, ∀ lead ∈ side.leads,
    lead ++ shape.name ∈ (shape.mode side).names := by
  decide +kernel

/-- Every listed name is made by the rule. -/
theorem cases_of_mem_names : ∀ mode ∈ all, ∀ name ∈ mode.names,
    name = mode.name ∨ (mode = .linear ∧ name = "lerp") ∨
      (mode = .exponential ∧ name = "ease_in_exponential") ∨
      ∃ shape ∈ Shape.all, ∃ side ∈ Side.all, ∃ lead ∈ side.leads,
        mode = shape.mode side ∧ name = lead ++ shape.name := by
  decide +kernel

theorem named_iff_mem_names {mode : Easing} {name : String} :
    Named mode name ↔ name ∈ mode.names := by
  constructor
  · intro h
    cases h with
    | canonical => exact name_mem_names mode mode.mem_all
    | lerp => decide
    | exponential => decide
    | sided shape h => exact sided_mem_names shape shape.mem_all _ (Side.mem_all _) _ h
  · intro h
    rcases cases_of_mem_names mode mode.mem_all name h with
      rfl | ⟨rfl, rfl⟩ | ⟨rfl, rfl⟩ | ⟨shape, -, side, -, lead, hlead, rfl, rfl⟩
    · exact .canonical mode
    · exact .lerp
    · exact .exponential
    · exact .sided shape hlead

/-- A curve has one shape and one side. -/
theorem Shape.mode_inj {shape shape' : Shape} {side side' : Side}
    (h : shape.mode side = shape'.mode side') : shape = shape' ∧ side = side' := by
  have hinj : ∀ shape ∈ Shape.all, ∀ side ∈ Side.all, ∀ shape' ∈ Shape.all, ∀ side' ∈ Side.all,
      shape.mode side = shape'.mode side' → shape = shape' ∧ side = side' := by
    decide +kernel
  exact hinj shape shape.mem_all side side.mem_all shape' shape'.mem_all side' side'.mem_all h

theorem trim_name (mode : Easing) : Text.trim mode.name.toList = mode.name.toList := by
  cases mode <;> decide

theorem parse_eq_ok {α : Type} {s : String} {mode : Easing} :
    (parse s : Except (Error α) Easing) = .ok mode ↔ Named mode (Text.plain s) := by
  rw [named_iff_mem_names, ← ofText?_eq_some, parse]
  cases ofText? s with
  | none => simp
  | some m => simp

theorem parse_eq_error {α : Type} {s : String} {e : Error α} :
    (parse s : Except (Error α) Easing) = .error e ↔
      e = .unknownEasing s ∧ ∀ mode, ¬ Named mode (Text.plain s) := by
  simp only [named_iff_mem_names, ← ofText?_eq_some, parse]
  cases ofText? s with
  | none => simp [eq_comm]
  | some m => simp

end Easing

/-! ## Names of extend modes -/

namespace Extend

theorem ofText?_eq_some_iff_name {s : String} {mode : Extend} :
    ofText? s = some mode ↔ Text.plain s = mode.name := by
  rw [ofText?_eq_some, names, List.mem_singleton]

theorem parse_eq_ok {α : Type} {s : String} {mode : Extend} :
    (parse s : Except (Error α) Extend) = .ok mode ↔ Text.plain s = mode.name := by
  rw [← ofText?_eq_some_iff_name, parse]
  cases ofText? s with
  | none => simp
  | some m => simp

theorem parse_eq_error {α : Type} {s : String} {e : Error α} :
    (parse s : Except (Error α) Extend) = .error e ↔
      e = .unknownExtend s ∧ ∀ mode : Extend, Text.plain s ≠ mode.name := by
  simp only [Ne, ← ofText?_eq_some_iff_name, parse]
  cases ofText? s with
  | none => simp [eq_comm]
  | some m => simp

theorem trim_name (mode : Extend) : Text.trim mode.name.toList = mode.name.toList := by
  cases mode <;> decide

end Extend

open Easing Text in
/-- **Modes are found by their names.** A text is read as an easing if it is a name of the easing
between blanks, in any case, and every other text is refused as it stands. Names with a side and a
shape lead to the curve of this side and this shape and to no other. Extend modes are read in the
same way, and have one name each. -/
theorem modes_found_by_name {α : Type} :
    (∀ (s : String) (mode : Easing), (Easing.parse s : Except (Error α) Easing) = .ok mode ↔
      ∃ name, Named mode name ∧ Pads name s) ∧
    (∀ (s : String) (e : Error α), (Easing.parse s : Except (Error α) Easing) = .error e ↔
      e = .unknownEasing s ∧ ∀ mode name, Named mode name → ¬ Pads name s) ∧
    (∀ mode mode' name, Named mode name → Named mode' name → mode = mode') ∧
    (∀ (shape shape' : Shape) (side side' : Side) (lead s : String), lead ∈ side.leads →
      Pads (lead ++ shape.name) s →
      (Easing.parse s : Except (Error α) Easing) = .ok (shape'.mode side') →
      shape' = shape ∧ side' = side) ∧
    (∀ (s : String) (mode : Extend), (Extend.parse s : Except (Error α) Extend) = .ok mode ↔
      Pads mode.name s) ∧
    (∀ (s : String) (e : Error α), (Extend.parse s : Except (Error α) Extend) = .error e ↔
      e = .unknownExtend s ∧ ∀ mode : Extend, ¬ Pads mode.name s) ∧
    ∀ before core after : List Char, (∀ c ∈ before ++ after, isBlank c = true) →
      (∀ mode : Easing, core.map Char.toLower = mode.name.toList →
        (Easing.parse (String.ofList (before ++ (core ++ after))) : Except (Error α) Easing) =
          .ok mode) ∧
      ∀ mode : Extend, core.map Char.toLower = mode.name.toList →
        (Extend.parse (String.ofList (before ++ (core ++ after))) : Except (Error α) Extend) =
          .ok mode := by
  have unique : ∀ mode mode' name, Named mode name → Named mode' name → mode = mode' := by
    intro mode mode' name h h'
    have hfound := ofName?_of_mem_names mode mode.mem_all name (named_iff_mem_names.mp h)
    have hfound' := ofName?_of_mem_names mode' mode'.mem_all name (named_iff_mem_names.mp h')
    exact Option.some.inj (hfound.symm.trans hfound')
  simp only [pads_iff, exists_eq_right']
  refine ⟨fun s mode => Easing.parse_eq_ok, ?_, unique, ?_, fun s mode => Extend.parse_eq_ok,
    fun s e => Extend.parse_eq_error, ?_⟩
  · intro s e
    rw [Easing.parse_eq_error]
    refine and_congr_right fun _ => ?_
    constructor
    · rintro h mode name hname rfl
      exact h mode hname
    · intro h mode hname
      exact h mode _ hname rfl
  · intro shape shape' side side' lead s hlead hs hparse
    have hnamed := Easing.parse_eq_ok.mp hparse
    rw [hs] at hnamed
    exact Shape.mode_inj (unique _ _ _ hnamed (.sided shape hlead))
  · intro before core after blank
    constructor
    · intro mode letters
      rw [Easing.parse_eq_ok, plain_padded blank letters mode.trim_name]
      exact .canonical mode
    · intro mode letters
      rw [Extend.parse_eq_ok, plain_padded blank letters mode.trim_name]

open Easing Text in
/-- `in_out_` is read as a side of its own, although `in_` comes before it. -/
theorem found_by_side :
    (Easing.parse " Ease_IN_Out_Sine\t" : Except (Error Int) Easing) = .ok .inOutSine ∧
    (∀ (shape : Shape) (side : Side),
      (Easing.parse "EASE_in_quad" : Except (Error Int) Easing) = .ok (shape.mode side) →
      shape = .quad ∧ side = .start) ∧
    (Extend.parse "\nREPEAT " : Except (Error Int) Extend) = .ok .repeating := by
  obtain ⟨found, -, -, apart, -, -, padded⟩ := modes_found_by_name (α := Int)
  refine ⟨(found _ _).mpr ⟨"ease_in_out_sine", ?_, ?_⟩, ?_, ?_⟩
  · have hlead : "ease_in_out_" ∈ Side.both.leads := by decide
    exact .sided .sine hlead
  · exact pads_iff.mpr (by decide)
  · intro shape side hparse
    refine apart .quad shape .start side "ease_in_" "EASE_in_quad" (by decide) ?_ hparse
    exact pads_iff.mpr (by decide)
  · have hblank : ∀ c ∈ ['\n'] ++ [' '], isBlank c = true := List.all_eq_true.mp (by decide)
    exact (padded ['\n'] "REPEAT".toList [' '] hblank).2 .repeating (by decide)

end Inbetween
