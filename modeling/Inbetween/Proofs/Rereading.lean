import Inbetween.Proofs.Magnitudes
import Inbetween.Proofs.Numerals
import Inbetween.Tween.Printer
import Inbetween.Tween.Reader

/-!
# Written descriptions are read back

The tree of a description is read as this description, if its numbers are restored and its levels
fit into the depth limit. Not every number is restored: the reader rounds the digits and the power
of ten apart, and may miss the written number by its last bit. So that a number is restored is an
assumption, on the numbers that are written and on no others.
-/

namespace Inbetween

/-! ## Numbers and levels of a description -/

section

variable {α : Type}

def Settings.floats (s : Settings α) : List α :=
  [s.start, s.finish, s.opens, s.closes, s.lasts].filterMap id

/-- The numbers from the next level on, and the ratio at the end. -/
def Timing.floats : Timing α → List α
  | .clock => []
  | .fixed ratio => [ratio]
  | .tween s t => s.floats ++ t.floats

def Spec.floats (s : Spec α) : List α := s.settings.floats ++ s.timing.floats

def Timing.levels : Timing α → Nat
  | .clock => 0
  | .fixed _ => 0
  | .tween _ t => t.levels + 1

/-- How many objects the tree of a description nests. -/
def Spec.levels (s : Spec α) : Nat := s.timing.levels + 1

end

/-- The written number is read as this number. -/
def Restored (x : Float) : Prop := (Decimal.Layout.json.numeral x).toFloat? = some x

instance : DecidablePred Restored := fun x =>
  inferInstanceAs (Decidable ((Decimal.Layout.json.numeral x).toFloat? = some x))

/-- Only finite numbers are. -/
theorem Restored.isFinite {x : Float} (h : Restored x) : x.isFinite = true :=
  Decimal.Numeral.isFinite_of_toFloat? h

theorem Settings.forall_floats {α : Type} {s : Settings α} {P : α → Prop} :
    (∀ x ∈ s.floats, P x) ↔
      (∀ x ∈ s.start, P x) ∧ (∀ x ∈ s.finish, P x) ∧ (∀ x ∈ s.opens, P x) ∧
        (∀ x ∈ s.closes, P x) ∧ ∀ x ∈ s.lasts, P x := by
  simp only [floats, List.mem_filterMap, List.mem_cons, List.not_mem_nil, or_false, id]
  constructor
  · intro h
    exact ⟨fun x hx => h x ⟨_, by simp, hx⟩, fun x hx => h x ⟨_, by simp, hx⟩,
      fun x hx => h x ⟨_, by simp, hx⟩, fun x hx => h x ⟨_, by simp, hx⟩,
      fun x hx => h x ⟨_, by simp, hx⟩⟩
  · rintro ⟨hstart, hfinish, hopens, hcloses, hlasts⟩ x ⟨v, rfl | rfl | rfl | rfl | rfl, hx⟩
    exacts [hstart x hx, hfinish x hx, hopens x hx, hcloses x hx, hlasts x hx]

/-! ## Trees of descriptions -/

namespace Printer

/-- The fields of a level, whether they have a value or not. -/
def entries (s : Settings Float) (t : Option Json) : List (Reader.Field × Option Json) :=
  [(.start, s.start.map number), (.finish, s.finish.map number), (.opens, s.opens.map number),
   (.closes, s.closes.map number), (.lasts, s.lasts.map number), (.timing, t),
   (.extend, s.extend.map extend), (.easing, s.easing.map easing)]

/-- The fields that have a value, under their names. -/
def present (entries : List (Reader.Field × Option Json)) : List (Option String × Json) :=
  entries.filterMap fun (f, v) => v.map fun v => (some f.name, v)

theorem nodup_entries (s : Settings Float) (t : Option Json) :
    ((entries s t).map Prod.fst).Nodup := (by decide : Reader.Field.all.Nodup)

theorem level_eq (s : Settings Float) (t : Option Json) :
    level s t = .object (present (entries s t)) := rfl

/-- What the fields of a level have in common. -/
theorem forall_present {P : Json → Prop} {s : Settings Float} {t : Option Json}
    (hnumber : ∀ x ∈ s.floats, P (number x)) (hmode : ∀ name, P (string name))
    (ht : ∀ v ∈ t, P v) : ∀ f ∈ present (entries s t), f.1.isSome = true ∧ P f.2 := by
  obtain ⟨hstart, hfinish, hopens, hcloses, hlasts⟩ := Settings.forall_floats.mp hnumber
  have hentries : ∀ e ∈ entries s t, ∀ v ∈ e.2, P v := by
    simp only [entries, List.forall_mem_cons, Option.forall_mem_map]
    exact ⟨hstart, hfinish, hopens, hcloses, hlasts, ht, fun mode _ => hmode mode.name,
      fun mode _ => hmode mode.name, by simp⟩
  intro f hf
  obtain ⟨⟨field, v⟩, hmem, hv⟩ := List.mem_filterMap.mp hf
  obtain ⟨u, rfl, rfl⟩ := Option.map_eq_some_iff.mp hv
  exact ⟨rfl, hentries _ hmem u rfl⟩

theorem proper_number (x : Float) : (number x).Proper := by
  rw [number]
  split
  · exact .number (Decimal.Layout.json.proper_numeral x)
  · exact .null

theorem proper_level (s : Settings Float) {t : Option Json} (ht : ∀ v ∈ t, v.Proper) :
    (level s t).Proper := by
  have hfields := forall_present (s := s) (fun x _ => proper_number x) .string ht
  exact .object (fun f hf => (hfields f hf).1) fun f hf => (hfields f hf).2

theorem proper_levels (s : Settings Float) (t : Timing Float) : (levels s t).Proper := by
  induction t generalizing s with
  | clock => exact proper_level s (by simp)
  | fixed ratio => exact proper_level s (by simpa using proper_number ratio)
  | tween inner t ih => exact proper_level s (by simpa using ih inner)

theorem number_eq {x : Float} (h : Restored x) :
    number x = .number (Decimal.Layout.json.numeral x) := if_pos h.isFinite

theorem isReadable_number {x : Float} (h : Restored x) (depth : Nat) :
    (number x).isReadable depth = true := by
  rw [number_eq h, Json.isReadable, h]
  rfl

theorem fieldsReadable_of_forall {depth : Nat} {fields : List (Option String × Json)}
    (h : ∀ f ∈ fields, f.1.isSome = true ∧ f.2.isReadable depth = true) :
    Json.fieldsReadable depth fields = true := by
  induction fields with
  | nil => rfl
  | cons f fields ih =>
      obtain ⟨⟨hkey, hv⟩, hfields⟩ := List.forall_mem_cons.mp h
      rw [Json.fieldsReadable, hkey, hv, ih hfields]
      rfl

theorem isReadable_level {depth : Nat} (hdepth : depth < Json.depthLimit) {s : Settings Float}
    (hs : ∀ x ∈ s.floats, Restored x) {t : Option Json}
    (ht : ∀ v ∈ t, v.isReadable (depth + 1) = true) : (level s t).isReadable depth = true := by
  have hfields := forall_present (P := fun v => v.isReadable (depth + 1) = true)
    (fun x hx => isReadable_number (hs x hx) _) (fun name => rfl) ht
  rw [level_eq, Json.isReadable, decide_eq_true hdepth, fieldsReadable_of_forall hfields]
  rfl

theorem isReadable_levels {depth : Nat} {s : Settings Float} {t : Timing Float}
    (hdepth : depth + (t.levels + 1) ≤ Json.depthLimit)
    (hfloats : ∀ x ∈ s.floats ++ t.floats, Restored x) :
    (levels s t).isReadable depth = true := by
  obtain ⟨hs, ht⟩ := List.forall_mem_append.mp hfloats
  induction t generalizing depth s with
  | clock => exact isReadable_level (by omega) hs (by simp)
  | fixed ratio =>
      have hratio : Restored ratio := ht ratio (List.mem_singleton_self ratio)
      exact isReadable_level (by omega) hs (by simpa using isReadable_number hratio _)
  | tween inner t ih =>
      obtain ⟨hinner, hrest⟩ := List.forall_mem_append.mp ht
      rw [Timing.levels] at hdepth
      have hnext : (depth + 1) + (t.levels + 1) ≤ Json.depthLimit := by omega
      have hlevels := ih hnext ht hinner hrest
      exact isReadable_level (by omega) hs (by simpa using hlevels)

end Printer

/-! ## Reading them -/

namespace Reader

open Printer (entries present)

theorem number_written {x : Float} (h : Restored x) : number (Printer.number x) = .ok x := by
  rw [Printer.number_eq h, number, h]

theorem extend_written (mode : Extend) : extend (Printer.extend mode) = .ok mode := by
  cases mode <;> rfl

theorem easing_written (mode : Easing) : easing (Printer.easing mode) = .ok mode := by
  cases mode <;> rfl

/-- A value that is read as something other than null is there. -/
theorem optional_of_ok {β : Type} {read : Json → Result β} (hnull : ∀ b, read .null ≠ .ok b)
    {v : Json} {b : β} (h : read v = .ok b) : optional read v = .ok (some b) := by
  have hv : v ≠ .null := by
    rintro rfl
    exact hnull b h
  rw [optional, h]
  · rfl
  · exact hv

theorem ofKey?_name (f : Field) : Field.ofKey? f.name = some f := by
  cases f <;> rfl

/-- Sets a field, if it has a value. -/
def setEntry (depth : Nat) (s : Spec Float) : Field × Option Json → Result (Spec Float)
  | (_, none) => .ok s
  | (f, some v) => setField depth s f v (spec depth v)

theorem foldlM_of_ok {β γ : Type} {f : β → γ → Result β} {b b' : β} {c : γ} (h : f b c = .ok b')
    (cs : List γ) : (c :: cs).foldlM f b = cs.foldlM f b' := by
  rw [List.foldlM_cons, h]
  rfl

/-- Fields that are named once are set one after the other. -/
theorem specFields_present (depth : Nat) {entries : List (Field × Option Json)}
    (hnodup : (entries.map Prod.fst).Nodup) {given : List Field}
    (hfresh : ∀ e ∈ entries, e.1 ∉ given) (s : Spec Float) :
    specFields depth given s (present entries) = entries.foldlM (setEntry depth) s := by
  induction entries generalizing given s with
  | nil => rfl
  | cons e entries ih =>
      obtain ⟨f, v⟩ := e
      obtain ⟨hnew, hrest⟩ := List.nodup_cons.mp hnodup
      obtain ⟨hf, hlater⟩ := List.forall_mem_cons.mp hfresh
      cases v with
      | none => exact ih hrest hlater s
      | some v =>
          have hgiven : ∀ e ∈ entries, e.1 ∉ f :: given := by
            intro e he hmem
            obtain heq | hmem := List.mem_cons.mp hmem
            · exact hnew (List.mem_map.mpr ⟨e, he, heq⟩)
            · exact hlater e he hmem
          show specFields depth given s ((some f.name, v) :: present entries) = _
          rw [specFields, ofKey?_name, List.foldlM_cons, setEntry]
          simp only [if_neg hf]
          cases setField depth s f v (spec depth v) with
          | error e => rfl
          | ok s' => exact ih hrest hgiven s'

/-- A plain field of a written description is set to what was written. -/
theorem setEntry_written {β : Type} {depth : Nat} {f : Field} {read : Json → Result β}
    {write : β → Json} (set : Spec Float → Option β → Spec Float)
    (hfield : ∀ s v inner, setField depth s f v inner = do return set s (← optional read v))
    (hnull : ∀ b, read .null ≠ .ok b) {value : Option β}
    (hread : ∀ b ∈ value, read (write b) = .ok b) {s : Spec Float} (hunset : set s none = s) :
    setEntry depth s (f, value.map write) = .ok (set s value) := by
  cases value with
  | none => rw [hunset]; rfl
  | some b =>
      rw [Option.map_some, setEntry, hfield, optional_of_ok hnull (hread b rfl)]
      rfl

theorem setEntry_number {depth : Nat} {f : Field} (set : Spec Float → Option Float → Spec Float)
    (hfield : ∀ s v inner, setField depth s f v inner = do return set s (← optional number v))
    {value : Option Float} (hvalue : ∀ x ∈ value, Restored x) {s : Spec Float}
    (hunset : set s none = s) :
    setEntry depth s (f, value.map Printer.number) = .ok (set s value) :=
  setEntry_written set hfield nofun (fun x hx => number_written (hvalue x hx)) hunset

/-- A level is read back if its time ratio is. -/
theorem spec_level {depth : Nat} (hdepth : depth < Json.depthLimit) {s : Settings Float}
    (hs : ∀ x ∈ s.floats, Restored x) {t : Option Json} {timing : Timing Float}
    (ht : ∀ s, setEntry (depth + 1) ⟨s, .clock⟩ (.timing, t) = .ok ⟨s, timing⟩) :
    spec depth (Printer.level s t) = .ok ⟨s, timing⟩ := by
  obtain ⟨start, finish, opens, closes, lasts, mode, curve⟩ := s
  obtain ⟨hstart, hfinish, hopens, hcloses, hlasts⟩ := Settings.forall_floats.mp hs
  have setStart : setEntry (depth + 1) {} (.start, start.map Printer.number) =
      .ok ⟨{ start := start }, .clock⟩ :=
    setEntry_number (fun s v => { s with settings.start := v }) (fun _ _ _ => rfl) hstart rfl
  have setFinish : setEntry (depth + 1) ⟨{ start := start }, .clock⟩
      (.finish, finish.map Printer.number) = .ok ⟨{ start := start, finish := finish }, .clock⟩ :=
    setEntry_number (fun s v => { s with settings.finish := v }) (fun _ _ _ => rfl) hfinish rfl
  have setOpens : setEntry (depth + 1) ⟨{ start := start, finish := finish }, .clock⟩
      (.opens, opens.map Printer.number) =
      .ok ⟨{ start := start, finish := finish, opens := opens }, .clock⟩ :=
    setEntry_number (fun s v => { s with settings.opens := v }) (fun _ _ _ => rfl) hopens rfl
  have setCloses : setEntry (depth + 1)
      ⟨{ start := start, finish := finish, opens := opens }, .clock⟩
      (.closes, closes.map Printer.number) =
      .ok ⟨{ start := start, finish := finish, opens := opens, closes := closes }, .clock⟩ :=
    setEntry_number (fun s v => { s with settings.closes := v }) (fun _ _ _ => rfl) hcloses rfl
  have setLasts : setEntry (depth + 1)
      ⟨{ start := start, finish := finish, opens := opens, closes := closes }, .clock⟩
      (.lasts, lasts.map Printer.number) = .ok ⟨⟨start, finish, opens, closes, lasts, none, none⟩,
        .clock⟩ :=
    setEntry_number (fun s v => { s with settings.lasts := v }) (fun _ _ _ => rfl) hlasts rfl
  have setTiming := ht ⟨start, finish, opens, closes, lasts, none, none⟩
  have setExtend : setEntry (depth + 1) ⟨⟨start, finish, opens, closes, lasts, none, none⟩, timing⟩
      (.extend, mode.map Printer.extend) =
      .ok ⟨⟨start, finish, opens, closes, lasts, mode, none⟩, timing⟩ :=
    setEntry_written (fun s v => { s with settings.extend := v }) (fun _ _ _ => rfl)
      (by simp [extend]) (fun mode _ => extend_written mode) rfl
  have setEasing : setEntry (depth + 1) ⟨⟨start, finish, opens, closes, lasts, mode, none⟩, timing⟩
      (.easing, curve.map Printer.easing) =
      .ok ⟨⟨start, finish, opens, closes, lasts, mode, curve⟩, timing⟩ :=
    setEntry_written (fun s v => { s with settings.easing := v }) (fun _ _ _ => rfl)
      (by simp [easing]) (fun mode _ => easing_written mode) rfl
  -- The fields are set in the order in which they are written, each one for the first time.
  rw [Printer.level_eq, spec, if_pos hdepth,
    specFields_present (depth + 1) (Printer.nodup_entries _ t) (by simp)]
  simp only [entries]
  rw [foldlM_of_ok setStart, foldlM_of_ok setFinish, foldlM_of_ok setOpens,
    foldlM_of_ok setCloses, foldlM_of_ok setLasts, foldlM_of_ok setTiming, foldlM_of_ok setExtend,
    foldlM_of_ok setEasing]
  rfl

theorem timing_fixed {depth : Nat} {ratio : Float} (h : Restored ratio)
    (inner : Result (Spec Float)) :
    timing depth (Printer.number ratio) inner = .ok (.fixed ratio) := by
  have hreadable := Printer.isReadable_number h depth
  have hnumber := number_written h
  rw [Printer.number_eq h] at hreadable hnumber ⊢
  simp only [timing, hreadable, hnumber, if_true]

/-- An object is a time ratio if it is a description. -/
theorem timing_tween {depth : Nat} {fields : List (Option String × Json)}
    (h : (Json.object fields).isReadable depth = true) (s : Spec Float) :
    timing depth (.object fields) (.ok s) = .ok (.tween s.settings s.timing) := by
  simp only [timing, h, if_true, number]

/-- **Trees of descriptions are read back.** -/
theorem spec_levels {depth : Nat} {s : Settings Float} {t : Timing Float}
    (hdepth : depth + (t.levels + 1) ≤ Json.depthLimit)
    (hfloats : ∀ x ∈ s.floats ++ t.floats, Restored x) :
    spec depth (Printer.levels s t) = .ok ⟨s, t⟩ := by
  obtain ⟨hs, ht⟩ := List.forall_mem_append.mp hfloats
  induction t generalizing depth s with
  | clock => exact spec_level (by omega) hs fun _ => rfl
  | fixed ratio =>
      have hratio : Restored ratio := ht ratio (List.mem_singleton_self ratio)
      refine spec_level (by omega) hs fun outer => ?_
      rw [setEntry, setField, timing_fixed hratio]
      rfl
  | tween inner t ih =>
      obtain ⟨hinner, hrest⟩ := List.forall_mem_append.mp ht
      rw [Timing.levels] at hdepth
      have hnext : (depth + 1) + (t.levels + 1) ≤ Json.depthLimit := by omega
      have hread := ih hnext ht hinner hrest
      have hreadable := Printer.isReadable_levels hnext ht
      refine spec_level (by omega) hs fun outer => ?_
      obtain ⟨u, hu⟩ : ∃ u, Printer.levels inner t = Printer.level inner u := by
        cases t <;> exact ⟨_, rfl⟩
      rw [Printer.level_eq] at hu
      rw [setEntry, setField, hread, hu, timing_tween (hu ▸ hreadable)]
      rfl

end Reader

end Inbetween
