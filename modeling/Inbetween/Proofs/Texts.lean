import Inbetween.Json.Text
import Mathlib.Data.Fintype.Basic
import Mathlib.Tactic.FinCases

/-!
# Texts of trees

The text of a tree is read back as this tree, if the tree is one that a text can have: there is no
fault in it, its strings have contents, and its numerals have digits where digits are required and
no needless zero in front.
-/

namespace Inbetween

open Decimal

/-! ## Numerals -/

/-- The numeral follows the rules of JSON. -/
structure Decimal.Numeral.Proper (n : Numeral) : Prop where
  whole : n.whole ≠ []
  /-- A zero in front stands alone. -/
  leading : ∀ ds, n.whole = Digit.zero :: ds → ds = []
  exponent : ∀ e, n.exponent = some e → e.digits ≠ []

namespace Json

/-- Characters that may stand behind a value inside a container. The end of the text may, too. -/
def Delimits (rest : List Char) : Prop := ∀ c ∈ rest.head?, c = ',' ∨ c = ']' ∨ c = '\x7d'

theorem delimits_nil : Delimits [] := by simp [Delimits]

theorem tokensFrom_stay {mode m : Mode} {c : Char} (h : feed mode c = .stay m) (cs : List Char) :
    tokensFrom mode (c :: cs) = tokensFrom m cs := by
  rw [tokensFrom, h]
  rfl

theorem tokensFrom_emit {mode : Mode} {c : Char} {t : Token} (h : feed mode c = .emit t)
    (cs : List Char) : tokensFrom mode (c :: cs) = t :: tokensFrom .between cs := by
  rw [tokensFrom, h]
  rfl

/-! ## Numerals -/

theorem ofChar?_char (d : Digit) : Digit.ofChar? d.char = some d := by
  revert d
  decide

theorem feed_firstDigit (d : Digit) : feed .between d.char = .stay (.ofDigit false d) := by
  fin_cases d <;> rfl

theorem feed_digit (part : Part) (n : Numeral) (d : Digit) :
    feed (.number part n) d.char = feedDigit d n part := by
  simp only [feed, feedNumber, ofChar?_char]

/-- The parts of a numeral with which it may end. -/
def Part.isLast : Part → Bool
  | .zero | .whole | .fraction | .exponent => true
  | _ => false

theorem tokensFrom_ended {part : Part} (hpart : part.isLast = true) (n : Numeral)
    {rest : List Char} (hrest : Delimits rest) :
    tokensFrom (.number part n) rest = .number n :: tokensFrom .between rest := by
  cases rest with
  | nil => cases part <;> first | rfl | cases hpart
  | cons c rest =>
      obtain rfl | rfl | rfl := hrest c rfl <;> cases part <;> first | rfl | cases hpart

/-- Digits are taken one after the other. Here `after ds` is the numeral when `ds` have been read in
the part. -/
theorem tokensFrom_digits {part : Part} (after : List Digit → Numeral)
    (h : ∀ ds d, feedDigit d (after ds) part = .stay (.number part (after (ds ++ [d]))))
    (before ds : List Digit) (cs : List Char) :
    tokensFrom (.number part (after before)) (ds.map Digit.char ++ cs) =
      tokensFrom (.number part (after (before ++ ds))) cs := by
  induction ds generalizing before with
  | nil => simp
  | cons d ds ih =>
      have hd := (feed_digit part (after before) d).trans (h before d)
      rw [List.map_cons, List.cons_append, tokensFrom_stay hd, ih, List.append_assoc]
      rfl

/-- The digits of an exponent, behind its letter and its sign. -/
theorem tokensFrom_exponentDigits {part : Part} (hpart : part = .mark ∨ part = .markSign)
    {n : Numeral} {sign : Sign} {ds : List Digit} (hds : ds ≠ []) {rest : List Char}
    (hrest : Delimits rest) :
    tokensFrom (.number part { n with exponent := some ⟨sign, []⟩ })
        (ds.map Digit.char ++ rest) =
      .number { n with exponent := some ⟨sign, ds⟩ } :: tokensFrom .between rest := by
  cases ds with
  | nil => exact absurd rfl hds
  | cons d ds =>
      have hfirst : feed (.number part { n with exponent := some ⟨sign, []⟩ }) d.char =
          .stay (.number .exponent { n with exponent := some ⟨sign, [d]⟩ }) := by
        rw [feed_digit]
        obtain rfl | rfl := hpart <;> rfl
      rw [List.map_cons, List.cons_append, tokensFrom_stay hfirst,
        tokensFrom_digits (fun ds => { n with exponent := some ⟨sign, ds⟩ }) (fun _ _ => rfl) [d],
        tokensFrom_ended rfl _ hrest]
      rfl

def exponentChars : Option Exponent → List Char
  | none => []
  | some e => 'e' :: (e.sign.chars ++ e.digits.map Digit.char)

theorem tokensFrom_exponent {part : Part} (hpart : part = .zero ∨ part = .whole ∨ part = .fraction)
    {n : Numeral} (hn : n.exponent = none) {exponent : Option Exponent}
    (hexponent : ∀ e, exponent = some e → e.digits ≠ []) {rest : List Char}
    (hrest : Delimits rest) :
    tokensFrom (.number part n) (exponentChars exponent ++ rest) =
      .number { n with exponent := exponent } :: tokensFrom .between rest := by
  cases exponent with
  | none =>
      have hlast : part.isLast = true := by
        obtain rfl | rfl | rfl := hpart <;> rfl
      rw [exponentChars, List.nil_append, tokensFrom_ended hlast n hrest, ← hn]
  | some e =>
      obtain ⟨sign, ds⟩ := e
      have hds : ds ≠ [] := hexponent _ rfl
      have hmark : feed (.number part n) 'e' =
          .stay (.number .mark { n with exponent := some ⟨.unsigned, []⟩ }) := by
        obtain rfl | rfl | rfl := hpart <;> rfl
      rw [exponentChars, List.cons_append, List.append_assoc, tokensFrom_stay hmark]
      cases sign with
      | unsigned => exact tokensFrom_exponentDigits (.inl rfl) hds hrest
      | plus =>
          rw [Sign.chars, List.cons_append, List.nil_append, tokensFrom_stay rfl]
          exact tokensFrom_exponentDigits (.inr rfl) hds hrest
      | minus =>
          rw [Sign.chars, List.cons_append, List.nil_append, tokensFrom_stay rfl]
          exact tokensFrom_exponentDigits (.inr rfl) hds hrest

def fractionChars (ds : List Digit) : List Char :=
  if ds.isEmpty then [] else '.' :: ds.map Digit.char

theorem tokensFrom_fraction {part : Part} (hpart : part = .zero ∨ part = .whole) (negative : Bool)
    (whole fraction : List Digit) {exponent : Option Exponent}
    (hexponent : ∀ e, exponent = some e → e.digits ≠ []) {rest : List Char}
    (hrest : Delimits rest) :
    tokensFrom (.number part ⟨negative, whole, [], none⟩)
        (fractionChars fraction ++ (exponentChars exponent ++ rest)) =
      .number ⟨negative, whole, fraction, exponent⟩ :: tokensFrom .between rest := by
  cases fraction with
  | nil =>
      have hexp : part = .zero ∨ part = .whole ∨ part = .fraction := by
        obtain rfl | rfl := hpart <;> simp
      exact tokensFrom_exponent hexp rfl hexponent hrest
  | cons d ds =>
      have hpoint : feed (.number part ⟨negative, whole, [], none⟩) '.' =
          .stay (.number .point ⟨negative, whole, [], none⟩) := by
        obtain rfl | rfl := hpart <;> rfl
      have hfirst := feed_digit .point ⟨negative, whole, [], none⟩ d
      rw [fractionChars, List.isEmpty_cons, if_neg Bool.false_ne_true, List.cons_append,
        tokensFrom_stay hpoint, List.map_cons, List.cons_append, tokensFrom_stay hfirst,
        List.nil_append,
        tokensFrom_digits (fun ds => ⟨negative, whole, ds, none⟩) (fun _ _ => rfl) [d] ds]
      exact tokensFrom_exponent (.inr (.inr rfl)) rfl hexponent hrest

theorem tokensFrom_firstDigit (negative : Bool) (d : Digit) (cs : List Char) :
    tokensFrom .between ((if negative then ['-'] else []) ++ d.char :: cs) =
      tokensFrom (.ofDigit negative d) cs := by
  cases negative with
  | false => exact tokensFrom_stay (feed_firstDigit d) cs
  | true =>
      have hsign : feed .between '-' = .stay (.number .sign ⟨true, [], [], none⟩) := rfl
      rw [if_pos rfl, List.cons_append, tokensFrom_stay hsign, List.nil_append]
      exact tokensFrom_stay (feed_digit .sign ⟨true, [], [], none⟩ d) cs

/-- A numeral that is followed by a delimiter is read as it was written. -/
theorem tokensFrom_numeral {n : Numeral} (hn : n.Proper) {rest : List Char}
    (hrest : Delimits rest) :
    tokensFrom .between (n.chars ++ rest) = .number n :: tokensFrom .between rest := by
  obtain ⟨negative, whole, fraction, exponent⟩ := n
  obtain ⟨hwhole, hleading, hexponent⟩ := hn
  cases whole with
  | nil => exact absurd rfl hwhole
  | cons d ds =>
      have hchars : Numeral.chars ⟨negative, d :: ds, fraction, exponent⟩ ++ rest =
          (if negative then ['-'] else []) ++ d.char :: (ds.map Digit.char ++
            (fractionChars fraction ++ (exponentChars exponent ++ rest))) := by
        cases exponent <;> simp [Numeral.chars, fractionChars, exponentChars]
      rw [hchars, tokensFrom_firstDigit, Mode.ofDigit]
      by_cases hd : d = Digit.zero
      · subst hd
        obtain rfl : ds = [] := hleading ds rfl
        rw [if_pos rfl]
        exact tokensFrom_fraction (.inl rfl) negative _ fraction hexponent hrest
      · rw [if_neg hd, 
          tokensFrom_digits (fun ds => ⟨negative, ds, [], none⟩) (fun _ _ => rfl) [d] ds]
        exact tokensFrom_fraction (.inr rfl) negative _ fraction hexponent hrest

/-! ## Strings -/

/-- The piece as which a character is read back. Control characters without an escape of their own
are named by their number. -/
def pieceOf (c : Char) : Piece :=
  if c = '"' ∨ c = '\\' ∨ c = '\x08' ∨ c = '\x0c' ∨ c = '\n' ∨ c = '\r' ∨ c = '\t' then .char c
  else if c.toNat < 0x20 then .unit c.toNat
  else .char c

theorem hexDigit?_hexChar : ∀ n < 16, hexDigit? (hexChar n) = some n := by
  decide

/-- A control character that is named by its number. -/
theorem tokensFrom_hex (pieces : List Piece) {n : Nat} (hn : n < 0x20) (cs : List Char) :
    tokensFrom (.string pieces)
        ('\\' :: 'u' :: '0' :: '0' :: hexChar (n / 16) :: hexChar (n % 16) :: cs) =
      tokensFrom (.string (.unit n :: pieces)) cs := by
  have hhigh : feed (.hex 2 0 pieces) (hexChar (n / 16)) = .stay (.hex 1 (n / 16) pieces) := by
    simp only [feed, hexDigit?_hexChar (n / 16) (by omega)]
    simp
  have hlow : feed (.hex 1 (n / 16) pieces) (hexChar (n % 16)) =
      .stay (.string (.unit n :: pieces)) := by
    simp only [feed, hexDigit?_hexChar (n % 16) (by omega), Nat.div_add_mod]
    simp
  rw [tokensFrom_stay (m := .escape pieces) rfl, tokensFrom_stay (m := .hex 4 0 pieces) rfl,
    tokensFrom_stay (m := .hex 3 0 pieces) rfl, tokensFrom_stay (m := .hex 2 0 pieces) rfl,
    tokensFrom_stay hhigh, tokensFrom_stay hlow]

theorem tokensFrom_escaped (pieces : List Piece) (c : Char) (cs : List Char) :
    tokensFrom (.string pieces) (escaped c ++ cs) =
      tokensFrom (.string (pieceOf c :: pieces)) cs := by
  unfold escaped
  split
  · rfl
  · rfl
  · rfl
  · rfl
  · rfl
  · rfl
  · rfl
  · rename_i hquote hbackslash hb hf hn hr ht
    have hplain : ¬ (c = '"' ∨ c = '\\' ∨ c = '\x08' ∨ c = '\x0c' ∨ c = '\n' ∨ c = '\r' ∨
        c = '\t') := by
      rintro (h | h | h | h | h | h | h)
      exacts [hquote h, hbackslash h, hb h, hf h, hn h, hr h, ht h]
    rw [pieceOf, if_neg hplain]
    by_cases hlow : c.toNat < 0x20
    · rw [if_pos hlow, if_pos hlow]
      exact tokensFrom_hex pieces hlow cs
    · have hstay : feed (.string pieces) c = .stay (.string (.char c :: pieces)) := by
        rw [feed, if_neg hquote, if_neg hbackslash, if_neg hlow]
      rw [if_neg hlow, if_neg hlow, List.cons_append, tokensFrom_stay hstay, List.nil_append]

theorem spell_unit {n : Nat} (hn : n < 0x20) (pieces : List Piece) :
    spell (.unit n :: pieces) = (spell pieces).map (Char.ofNat n :: ·) := by
  have hleading : isLeading n = false := by
    simp only [isLeading, Bool.and_eq_false_iff, decide_eq_false_iff_not]
    omega
  have htrailing : isTrailing n = false := by
    simp only [isTrailing, Bool.and_eq_false_iff, decide_eq_false_iff_not]
    omega
  cases pieces with
  | nil => simp [spell, hleading, htrailing]
  | cons p rest => cases p <;> simp [spell, hleading, htrailing]

theorem spell_map_pieceOf (cs : List Char) : spell (cs.map pieceOf) = some cs := by
  induction cs with
  | nil => rfl
  | cons c cs ih =>
      rw [List.map_cons, pieceOf]
      split
      · rw [spell, ih, Option.map_some]
      · split
        · rename_i hlow
          rw [spell_unit hlow, ih, Option.map_some, Char.ofNat_toNat]
        · rw [spell, ih, Option.map_some]

theorem tokensFrom_characters (pieces : List Piece) (s cs : List Char) :
    tokensFrom (.string pieces) (s.flatMap escaped ++ cs) =
      tokensFrom (.string ((s.map pieceOf).reverse ++ pieces)) cs := by
  induction s generalizing pieces with
  | nil => rfl
  | cons c s ih =>
      rw [List.flatMap_cons, List.append_assoc, tokensFrom_escaped, ih]
      simp

/-- A string is read as it was written, whatever its characters are. -/
theorem tokensFrom_quoted (s : String) (rest : List Char) :
    tokensFrom .between (quoted s ++ rest) = .string (some s) :: tokensFrom .between rest := by
  have hclose : feed (.string (s.toList.map pieceOf).reverse) '"' = .emit (.string (some s)) := by
    rw [feed, if_pos rfl, List.reverse_reverse, spell_map_pieceOf, Option.map_some,
      String.ofList_toList]
  rw [quoted, List.cons_append, tokensFrom_stay (m := .string []) rfl, List.append_assoc,
    tokensFrom_characters, List.append_nil, List.cons_append, tokensFrom_emit hclose,
    List.nil_append]

/-! ## Trees -/

/-- The trees that texts have. -/
inductive Proper : Json → Prop
  | null : Proper .null
  | bool (b : Bool) : Proper (.bool b)
  | number {n : Numeral} (h : n.Proper) : Proper (.number n)
  | string (s : String) : Proper (.string (some s))
  | array {items : List Json} (h : ∀ v ∈ items, Proper v) : Proper (.array items)
  | object {fields : List (Option String × Json)} (keys : ∀ f ∈ fields, f.1.isSome = true)
      (h : ∀ f ∈ fields, Proper f.2) : Proper (.object fields)

/-- The value is read off its text, in whatever containers it stands. -/
def ReadsBack (v : Json) : Prop :=
  ∀ {rest : List Char}, Delimits rest → ∀ frames,
    Site.read ⟨frames, .value⟩ (tokensFrom .between (v.chars ++ rest)) =
      (supply v frames).read (tokensFrom .between rest)

theorem read_of_step {s next : Site} {t : Token} (h : s.step t = some next) (ts : List Token) :
    s.read (t :: ts) = next.read ts := by
  rw [Site.read, h]

theorem delimits_cons {c : Char} (h : c = ',' ∨ c = ']' ∨ c = '\x7d') (rest : List Char) :
    Delimits (c :: rest) := by
  simpa [Delimits] using h

/-! ### Arrays -/

theorem read_items {items : List Json} (h : ∀ v ∈ items, v.ReadsBack) (nonempty : items ≠ [])
    (before : List Json) (frames : List Frame) (rest : List Char) :
    Site.read ⟨.array before :: frames, .value⟩
        (tokensFrom .between (itemChars items ++ ']' :: rest)) =
      (supply (.array (before.reverse ++ items)) frames).read (tokensFrom .between rest) := by
  induction items generalizing before with
  | nil => exact absurd rfl nonempty
  | cons v items ih =>
      obtain ⟨hv, hitems⟩ := List.forall_mem_cons.mp h
      cases items with
      | nil =>
          rw [itemChars, hv (delimits_cons (by simp) rest),
            tokensFrom_emit (t := .closeBracket) rfl, supply, read_of_step rfl, List.reverse_cons]
      | cons next items =>
          have hlater := ih hitems (List.cons_ne_nil _ _) (v :: before)
          rw [itemChars, List.append_assoc, List.cons_append, hv (delimits_cons (by simp) _),
            tokensFrom_emit (t := .comma) rfl, supply, read_of_step rfl, hlater]
          · simp
          · simp

/-- An array that does not end at once has a first item. -/
theorem read_firstItem {t : Token} (h : t ≠ .closeBracket) (frames : List Frame)
    (ts : List Token) :
    Site.read ⟨frames, .firstItem⟩ (t :: ts) =
      Site.read ⟨.array [] :: frames, .value⟩ (t :: ts) := by
  have hstep : Site.step ⟨frames, .firstItem⟩ t = Site.step ⟨.array [] :: frames, .value⟩ t := by
    cases t <;> first | rfl | exact absurd rfl h
  rw [Site.read, Site.read, hstep]
  rfl

theorem Proper.firstToken {v : Json} (h : v.Proper) {rest : List Char} (hrest : Delimits rest) :
    ∃ t ts, tokensFrom .between (v.chars ++ rest) = t :: ts ∧ t ≠ .closeBracket := by
  cases h with
  | null => exact ⟨.null, _, rfl, by simp⟩
  | bool b => cases b <;> exact ⟨_, _, rfl, by simp⟩
  | number h => exact ⟨_, _, tokensFrom_numeral h hrest, by simp⟩
  | string s => exact ⟨_, _, tokensFrom_quoted s rest, by simp⟩
  | array h => exact ⟨_, _, tokensFrom_emit (t := .openBracket) rfl _, by simp⟩
  | object keys h => exact ⟨_, _, tokensFrom_emit (t := .openBrace) rfl _, by simp⟩

theorem readsBack_array {items : List Json} (h : ∀ v ∈ items, v.Proper)
    (ih : ∀ v ∈ items, v.ReadsBack) : (Json.array items).ReadsBack := by
  intro rest hrest frames
  rw [chars, List.cons_append, List.append_assoc, tokensFrom_emit (t := .openBracket) rfl,
    read_of_step rfl]
  cases items with
  | nil =>
      rw [itemChars, List.nil_append, List.cons_append, tokensFrom_emit (t := .closeBracket) rfl,
        read_of_step rfl]
      rfl
  | cons v items =>
      have hall := read_items ih (List.cons_ne_nil v items) [] frames rest
      obtain ⟨tail, htail, hchars⟩ : ∃ tail, Delimits tail ∧
          itemChars (v :: items) ++ ']' :: rest = v.chars ++ tail := by
        cases items with
        | nil => exact ⟨']' :: rest, delimits_cons (by simp) rest, rfl⟩
        | cons next items =>
            exact ⟨',' :: (itemChars (next :: items) ++ ']' :: rest), delimits_cons (by simp) _,
              by simp [itemChars]⟩
      obtain ⟨t, ts, htokens, ht⟩ := (h v List.mem_cons_self).firstToken htail
      rw [hchars, htokens] at hall
      rw [List.cons_append, List.nil_append, hchars, htokens, read_firstItem ht, hall]
      rfl

/-! ### Objects -/

/-- The site `s` takes the first key, or a later one. -/
theorem read_fields {fields : List (Option String × Json)}
    (keys : ∀ f ∈ fields, f.1.isSome = true) (h : ∀ f ∈ fields, f.2.ReadsBack)
    (nonempty : fields ≠ []) {s : Site} (before : List (Option String × Json))
    (frames : List Frame)
    (hs : ∀ key, s.step (.string key) = some ⟨frames, .colon before key⟩) (rest : List Char) :
    s.read (tokensFrom .between (fieldChars fields ++ '\x7d' :: rest)) =
      (supply (.object (before.reverse ++ fields)) frames).read (tokensFrom .between rest) := by
  induction fields generalizing s before with
  | nil => exact absurd rfl nonempty
  | cons field fields ih =>
      obtain ⟨hkey, hkeys⟩ := List.forall_mem_cons.mp keys
      obtain ⟨hv, hfields⟩ := List.forall_mem_cons.mp h
      obtain ⟨key, v⟩ := field
      obtain ⟨name, rfl⟩ := Option.isSome_iff_exists.mp hkey
      cases fields with
      | nil =>
          rw [fieldChars, Option.getD_some, List.append_assoc, List.cons_append,
            tokensFrom_quoted, read_of_step (hs (some name)), tokensFrom_emit (t := .colon) rfl,
            read_of_step rfl, hv (delimits_cons (by simp) rest),
            tokensFrom_emit (t := .closeBrace) rfl, supply, read_of_step rfl, List.reverse_cons]
      | cons next fields =>
          have hlater := ih hkeys hfields (List.cons_ne_nil _ _) ((some name, v) :: before)
            (s := ⟨frames, .key ((some name, v) :: before)⟩) (fun _ => rfl)
          rw [fieldChars, Option.getD_some, List.append_assoc, List.cons_append,
            List.append_assoc, List.cons_append, tokensFrom_quoted, read_of_step (hs (some name)),
            tokensFrom_emit (t := .colon) rfl, read_of_step rfl, hv (delimits_cons (by simp) _),
            tokensFrom_emit (t := .comma) rfl, supply, read_of_step rfl, hlater]
          · simp
          · simp

theorem readsBack_object {fields : List (Option String × Json)}
    (keys : ∀ f ∈ fields, f.1.isSome = true) (ih : ∀ f ∈ fields, f.2.ReadsBack) :
    (Json.object fields).ReadsBack := by
  intro rest hrest frames
  rw [chars, List.cons_append, List.append_assoc, tokensFrom_emit (t := .openBrace) rfl,
    read_of_step rfl, List.cons_append, List.nil_append]
  cases fields with
  | nil =>
      rw [fieldChars, List.nil_append, tokensFrom_emit (t := .closeBrace) rfl, read_of_step rfl]
  | cons field fields =>
      exact read_fields keys ih (List.cons_ne_nil _ _) [] frames (fun _ => rfl) rest

/-! ### All trees -/

theorem Proper.readsBack {v : Json} (h : v.Proper) : v.ReadsBack := by
  induction h with
  | null =>
      intro rest hrest frames
      exact read_of_step (t := .null) rfl _
  | bool b =>
      intro rest hrest frames
      cases b <;> exact read_of_step (t := .bool _) rfl _
  | number h =>
      intro rest hrest frames
      rw [chars, tokensFrom_numeral h hrest, read_of_step rfl]
  | string s =>
      intro rest hrest frames
      rw [chars, Option.getD_some, tokensFrom_quoted, read_of_step rfl]
  | array h ih => exact readsBack_array h ih
  | object keys h ih => exact readsBack_object keys ih

/-- **Texts are read back.** The text of a tree is read as this tree, and nothing is left over. -/
theorem Document.ofText_text {v : Json} (h : v.Proper) : Document.ofText v.text = ⟨v, false⟩ := by
  have hread := h.readsBack delimits_nil []
  rw [List.append_nil] at hread
  rw [Document.ofText, Document.ofTokens, text, String.toList_ofList, tokens, hread]
  rfl

end Json

end Inbetween
