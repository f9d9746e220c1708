import Inbetween.Easing.Mode
import Inbetween.Extend
import Inbetween.Json.Tree
import Mathlib.Data.String.Basic

/-!
# Spellings

The same mode may be named in several ways: in any case, between blanks, and for easings by the
names that authors use. And the same JSON text may have any blanks between its tokens.
-/

namespace Inbetween

namespace Text

/-! ## Plain names -/

theorem isBlank_of_letter {c : Char} (h : (65 ≤ c.toNat ∧ c.toNat ≤ 90) ∨
    (97 ≤ c.toNat ∧ c.toNat ≤ 122)) : isBlank c = false := by
  simp only [isBlank, blankRanges, List.any_cons, List.any_nil, Bool.or_false,
    Bool.or_eq_false_iff, Bool.and_eq_false_iff, decide_eq_false_iff_not]
  omega

theorem isBlank_toLower (c : Char) : isBlank c.toLower = isBlank c := by
  show isBlank (if h : c.val ≥ 'A'.val ∧ c.val ≤ 'Z'.val then
    ⟨c.val + ('a'.val - 'A'.val), _⟩ else c) = isBlank c
  split
  · rename_i h
    obtain ⟨hlow, hhigh⟩ : 65 ≤ c.val.toNat ∧ c.val.toNat ≤ 90 := h
    have hadd : (c.val + ('a'.val - 'A'.val)).toNat = c.val.toNat + 32 := by
      rw [UInt32.toNat_add, Nat.mod_eq_of_lt]
      · rfl
      · show c.val.toNat + 32 < _
        omega
    rw [isBlank_of_letter, isBlank_of_letter (.inl ⟨hlow, hhigh⟩)]
    exact .inr ⟨by rw [Char.toNat, hadd]; omega, by rw [Char.toNat, hadd]; omega⟩
  · rfl

theorem dropWhile_isBlank_map_toLower (cs : List Char) :
    (cs.map Char.toLower).dropWhile isBlank = (cs.dropWhile isBlank).map Char.toLower := by
  rw [List.dropWhile_map]
  congr 1
  refine congrArg (fun p => List.dropWhile p cs) (funext isBlank_toLower)

theorem trim_map_toLower (cs : List Char) :
    trim (cs.map Char.toLower) = (trim cs).map Char.toLower := by
  simp only [trim, dropWhile_isBlank_map_toLower, ← List.map_reverse]

theorem trim_append_left {blanks : List Char} (h : ∀ c ∈ blanks, isBlank c = true)
    (cs : List Char) : trim (blanks ++ cs) = trim cs := by
  rw [trim, List.dropWhile_append_of_pos h, trim]

theorem trim_append_right {blanks : List Char} (h : ∀ c ∈ blanks, isBlank c = true)
    (cs : List Char) : trim (cs ++ blanks) = trim cs := by
  have hnil : blanks.dropWhile isBlank = [] := by
    rw [← List.append_nil blanks, List.dropWhile_append_of_pos h, List.dropWhile_nil]
  rw [trim, trim, List.dropWhile_append]
  split
  · rename_i hempty
    rw [hnil, List.isEmpty_iff.mp hempty]
  · rw [List.reverse_append, List.dropWhile_append_of_pos]
    exact fun c hc => h c (List.mem_reverse.mp hc)

/-- The plain name as a text. -/
def plain (s : String) : String := String.ofList (plainName s)

/-- One text is another spelling of the other, for things that have the given names. -/
inductive Respelled {β : Type} (names : β → List String) : String → String → Prop
  /-- Letters are raised or lowered. -/
  | letters {s s' : String} (h : s.toList.map Char.toLower = s'.toList.map Char.toLower) :
      Respelled names s s'
  /-- Blanks are put around the text. -/
  | widened {s s' : String} {before after : List Char}
      (blank : ∀ c ∈ before ++ after, isBlank c = true)
      (h : s'.toList = before ++ (s.toList ++ after)) : Respelled names s s'
  | narrowed {s s' : String} {before after : List Char}
      (blank : ∀ c ∈ before ++ after, isBlank c = true)
      (h : s.toList = before ++ (s'.toList ++ after)) : Respelled names s s'
  /-- Another name of the same thing is used. -/
  | renamed {s s' : String} {b : β} (h : plain s ∈ names b) (h' : plain s' ∈ names b) :
      Respelled names s s'

theorem plainName_of_letters {s s' : String}
    (h : s.toList.map Char.toLower = s'.toList.map Char.toLower) : plainName s = plainName s' := by
  rw [plainName, plainName, ← trim_map_toLower, h, trim_map_toLower]

theorem plainName_of_blanks {s s' : String} {before after : List Char}
    (blank : ∀ c ∈ before ++ after, isBlank c = true)
    (h : s'.toList = before ++ (s.toList ++ after)) : plainName s = plainName s' := by
  obtain ⟨hbefore, hafter⟩ := List.forall_mem_append.mp blank
  rw [plainName, plainName, h, trim_append_left hbefore, trim_append_right hafter]

/-- Respelling keeps what a text names. -/
theorem Respelled.named {β : Type} {names : β → List String} {lookup : String → Option β}
    (hlookup : ∀ s b, lookup s = some b ↔ plain s ∈ names b) {s s' : String}
    (h : Respelled names s s') {b : β} (hs : lookup s = some b) : lookup s' = some b := by
  have hplain : plainName s = plainName s' → lookup s' = some b := by
    intro heq
    rw [hlookup, plain] at hs ⊢
    rwa [← heq]
  cases h with
  | letters h => exact hplain (plainName_of_letters h)
  | widened blank h => exact hplain (plainName_of_blanks blank h)
  | narrowed blank h => exact hplain (plainName_of_blanks blank h).symm
  | renamed h h' =>
      have hb := (hlookup _ _).mpr h
      obtain rfl := Option.some.inj (hs.symm.trans hb)
      exact (hlookup _ _).mpr h'

end Text

/-! ## Names of modes -/

def Extend.names (mode : Extend) : List String := [mode.name]

theorem Extend.ofText?_eq_some {s : String} {mode : Extend} :
    ofText? s = some mode ↔ Text.plain s ∈ mode.names := by
  have hname : mode.name.toList = Text.plainName s ↔ Text.plain s = mode.name := by
    rw [Text.plain, String.ofList_eq, eq_comm]
  rw [names, List.mem_singleton, ← hname, ofText?]
  constructor
  · intro h
    simpa using List.find?_some h
  · intro h
    rw [← h]
    cases mode <;> rfl

/-- All names of a mode. The first one is canonical, and the others are those that authors use. -/
def Easing.names : Easing → List String
  | .linear => ["linear", "lerp"]
  | .cosine => ["cosine"]
  | .sine => ["sine"]
  | .exponential => ["exponential", "ease_in_exponential"]
  | .inCirc => ["in_circ", "ease_in_circ"]
  | .outCirc => ["out_circ", "ease_out_circ"]
  | .inOutCirc => ["in_out_circ", "ease_in_out_circ", "ease_circ"]
  | .inBack => ["in_back", "ease_in_back"]
  | .outBack => ["out_back", "ease_out_back"]
  | .inOutBack => ["in_out_back", "ease_in_out_back", "ease_back"]
  | .inBounce => ["in_bounce", "ease_in_bounce"]
  | .outBounce => ["out_bounce", "ease_out_bounce"]
  | .inOutBounce => ["in_out_bounce", "ease_in_out_bounce", "ease_bounce"]
  | .inSine => ["in_sine", "ease_in_sine"]
  | .outSine => ["out_sine", "ease_out_sine"]
  | .inOutSine => ["in_out_sine", "ease_in_out_sine", "ease_sine"]
  | .inQuad => ["in_quad", "ease_in_quad"]
  | .outQuad => ["out_quad", "ease_out_quad"]
  | .inOutQuad => ["in_out_quad", "ease_in_out_quad", "ease_quad"]
  | .inCubic => ["in_cubic", "ease_in_cubic"]
  | .outCubic => ["out_cubic", "ease_out_cubic"]
  | .inOutCubic => ["in_out_cubic", "ease_in_out_cubic", "ease_cubic"]

namespace Easing

theorem mem_all (mode : Easing) : mode ∈ all := by
  cases mode <;> decide

/-- The mode of a plain name. -/
def ofName? (name : List Char) : Option Easing :=
  (all.find? fun mode => mode.name.toList == name) <|> ofAlias? name

theorem ofName?_of_mem_names :
    ∀ mode ∈ all, ∀ name ∈ mode.names, ofName? name.toList = some mode := by
  decide +kernel

/-- An author's name is taken apart in one of three ways. -/
theorem aliasParts?_eq_some {name direction family : List Char}
    (h : aliasParts? name = some (direction, family)) :
    (name = "ease_".toList ++ ("in_".toList ++ family) ∧ direction = "in".toList) ∨
    (name = "ease_".toList ++ ("out_".toList ++ family) ∧ direction = "out".toList) ∨
    (name = "ease_".toList ++ family ∧ direction = "in_out".toList) := by
  simp only [aliasParts?, Option.bind_eq_bind, Option.bind_eq_some_iff] at h
  obtain ⟨rest, hrest, h⟩ := h
  rw [← List.isPrefixOf?_eq_some_iff_append_eq.mp hrest]
  split at h
  · rename_i hin
    obtain ⟨rfl, rfl⟩ := Prod.mk.inj (Option.some.inj h)
    exact .inl ⟨by rw [List.isPrefixOf?_eq_some_iff_append_eq.mp hin], rfl⟩
  · rename_i hout
    obtain ⟨rfl, rfl⟩ := Prod.mk.inj (Option.some.inj h)
    exact .inr (.inl ⟨by rw [List.isPrefixOf?_eq_some_iff_append_eq.mp hout], rfl⟩)
  · obtain ⟨rfl, rfl⟩ := Prod.mk.inj (Option.some.inj h)
    exact .inr (.inr ⟨rfl, rfl⟩)

/-- The curves that ease on one side, or on both sides by their full name. -/
theorem mem_names_of_direction : ∀ mode ∈ all,
    "in_".toList <+: mode.name.toList ∨ "out_".toList <+: mode.name.toList →
      "ease_".toList ++ mode.name.toList ∈ mode.names.map String.toList := by
  decide +kernel

/-- The curves that ease on both sides, without their direction. -/
theorem mem_names_of_inOut : ∀ mode ∈ all, "in_out_".toList <+: mode.name.toList →
    "ease_".toList ++ mode.name.toList.drop 7 ∈ mode.names.map String.toList := by
  decide +kernel

theorem mem_names_of_ofAlias? {name : List Char} {mode : Easing} (h : ofAlias? name = some mode) :
    name ∈ mode.names.map String.toList := by
  rw [ofAlias?] at h
  split at h
  · rename_i hlerp
    obtain rfl := Option.some.inj h
    rw [hlerp]
    decide
  · split at h
    · cases h
    · rename_i direction family hparts
      have hways := aliasParts?_eq_some hparts
      split at h
      · rename_i hfamily
        split at h
        · rename_i hdirection
          obtain rfl := Option.some.inj h
          subst hfamily hdirection
          rcases hways with ⟨rfl, -⟩ | ⟨-, hout⟩ | ⟨-, hboth⟩
          · decide
          · exact absurd hout (by decide)
          · exact absurd hboth (by decide)
        · cases h
      · have hname : mode.name.toList = direction ++ '_' :: family := by
          simpa using List.find?_some h
        rcases hways with ⟨rfl, rfl⟩ | ⟨rfl, rfl⟩ | ⟨rfl, rfl⟩
        · have hmem := mem_names_of_direction mode mode.mem_all (.inl ⟨family, hname.symm⟩)
          rwa [hname] at hmem
        · have hmem := mem_names_of_direction mode mode.mem_all (.inr ⟨family, hname.symm⟩)
          rwa [hname] at hmem
        · have hmem := mem_names_of_inOut mode mode.mem_all ⟨family, hname.symm⟩
          rwa [hname] at hmem

/-- **The names of a mode** are those that are listed, and no others. -/
theorem ofText?_eq_some {s : String} {mode : Easing} :
    ofText? s = some mode ↔ Text.plain s ∈ mode.names := by
  have hplain : Text.plain s ∈ mode.names ↔
      Text.plainName s ∈ mode.names.map String.toList := by
    rw [List.mem_map]
    constructor
    · exact fun h => ⟨_, h, String.toList_ofList⟩
    · rintro ⟨name, hmem, hname⟩
      rwa [Text.plain, ← hname, String.ofList_toList]
  rw [hplain]
  show ofName? (Text.plainName s) = some mode ↔ _
  constructor
  · intro h
    rw [ofName?] at h
    cases hfind : all.find? fun mode => mode.name.toList == Text.plainName s with
    | none =>
        rw [hfind] at h
        exact mem_names_of_ofAlias? h
    | some m =>
        rw [hfind] at h
        obtain rfl := Option.some.inj h
        have hname : m.name.toList = Text.plainName s := by simpa using List.find?_some hfind
        rw [← hname]
        cases m <;> decide
  · intro h
    obtain ⟨name, hmem, hname⟩ := List.mem_map.mp h
    rw [← hname]
    exact ofName?_of_mem_names mode mode.mem_all name hmem

end Easing

/-! ## Blanks between tokens -/

namespace Json

/-- The blanks of JSON. -/
def blanks : List Char := [' ', '\n', '\t', '\r']

/-- The machine goes on, or there is a fault. -/
def Fed.Heeds (fed : Fed) : Prop := fed.next = none → .fault ∈ fed.tokens

namespace Fed

theorem heeds_stay (mode : Mode) : (stay mode).Heeds := nofun

theorem heeds_emit (t : Token) : (emit t).Heeds := nofun

theorem heeds_fault : fault.Heeds := fun _ => List.mem_singleton_self _

theorem Heeds.cons {fed : Fed} (h : fed.Heeds) (t : Token) :
    ({ fed with tokens := t :: fed.tokens } : Fed).Heeds :=
  fun hnext => List.mem_cons_of_mem _ (h hnext)

end Fed

open Fed

theorem heeds_begin (c : Char) : (begin c).Heeds := by
  unfold begin
  repeat' split
  all_goals first
    | exact heeds_stay _
    | exact heeds_emit _
    | exact heeds_fault

theorem heeds_feedDigit (d : Decimal.Digit) (n : Decimal.Numeral) (part : Part) :
    (feedDigit d n part).Heeds := by
  cases part <;> first
    | exact heeds_stay _
    | exact heeds_fault

theorem heeds_feedNumber (c : Char) (n : Decimal.Numeral) (part : Part) :
    (feedNumber c n part).Heeds := by
  have hfinish : (finishNumber n c).Heeds := (heeds_begin c).cons _
  unfold feedNumber
  repeat' split
  all_goals first
    | exact heeds_feedDigit _ _ _
    | exact heeds_stay _
    | exact heeds_fault
    | exact hfinish

/-- The machine stops only at a fault. -/
theorem heeds_feed (mode : Mode) (c : Char) : (feed mode c).Heeds := by
  unfold feed
  repeat' split
  all_goals first
    | exact heeds_begin c
    | exact (heeds_begin c).cons _
    | exact heeds_feedNumber _ _ _
    | exact heeds_stay _
    | exact heeds_emit _
    | exact heeds_fault

/-- A blank completes what the end of the text would complete. -/
theorem tokensFrom_blank {mode : Mode} {c : Char} (hc : c ∈ blanks) (whole : .fault ∉ finish mode)
    (after : List Char) : tokensFrom mode (c :: after) = finish mode ++ tokens after := by
  have hbegin : begin c = .stay .between := by
    simp only [blanks, List.mem_cons, List.not_mem_nil, or_false] at hc
    rcases hc with rfl | rfl | rfl | rfl <;> rfl
  have hdigit : Decimal.Digit.ofChar? c = none := by
    simp only [blanks, List.mem_cons, List.not_mem_nil, or_false] at hc
    rcases hc with rfl | rfl | rfl | rfl <;> rfl
  have hletter : c ≠ '.' ∧ c ≠ 'e' ∧ c ≠ 'E' := by
    simp only [blanks, List.mem_cons, List.not_mem_nil, or_false] at hc
    rcases hc with rfl | rfl | rfl | rfl <;> decide
  have hfeed : feed mode c = ⟨finish mode, some .between⟩ := by
    cases mode with
    | between => exact hbegin
    | word rest token =>
        cases rest with
        | nil => simp only [feed, hbegin, finish, stay]
        | cons d rest => exact absurd (List.mem_singleton_self _) whole
    | string pieces => exact absurd (List.mem_singleton_self _) whole
    | escape pieces => exact absurd (List.mem_singleton_self _) whole
    | hex left unit pieces => exact absurd (List.mem_singleton_self _) whole
    | number part n =>
        cases part <;> first
          | exact absurd (List.mem_singleton_self _) whole
          | simp only [feed, feedNumber, hdigit, hletter.1, hletter.2.1, hletter.2.2, or_false,
              if_false, finishNumber, hbegin, finish, stay]
  rw [tokensFrom, hfeed]
  rfl

theorem tokensFrom_append_blank {mode : Mode} {before : List Char} {c : Char} (hc : c ∈ blanks)
    (whole : .fault ∉ tokensFrom mode before) (after : List Char) :
    tokensFrom mode (before ++ c :: after) = tokensFrom mode before ++ tokens after := by
  induction before generalizing mode with
  | nil => exact tokensFrom_blank hc whole after
  | cons d before ih =>
      rw [List.cons_append, tokensFrom, tokensFrom]
      rw [tokensFrom] at whole
      cases hnext : (feed mode d).next with
      | none =>
          exact absurd (List.mem_append_left _ (heeds_feed mode d hnext)) whole
      | some next =>
          rw [hnext] at whole
          simp only [ih fun hmem => whole (List.mem_append_right _ hmem), List.append_assoc]

/-- Blanks between tokens leave no trace. Here `before` and `after` are parts of a text that share
no token. -/
theorem tokens_insert_blank {before after : List Char} {c : Char} (hc : c ∈ blanks)
    (whole : .fault ∉ tokens before)
    (apart : tokens (before ++ after) = tokens before ++ tokens after) :
    tokens (before ++ c :: after) = tokens (before ++ after) := by
  rw [apart, tokens, tokensFrom_append_blank hc whole]
  rfl

end Json

end Inbetween
