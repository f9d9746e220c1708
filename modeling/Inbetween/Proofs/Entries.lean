import Inbetween.Proofs.Acceptance

/-!
# Descriptions field by field

An object gives fields by their keys, in any order and among keys that are skipped, and an array
gives them by position. Apart from that it does not matter how a field was given: a description is
read if each of its fields is, and a field that is missing reads like one that is null.
-/

namespace Inbetween

namespace Reader

open Json (depthLimit)

/-! ## Contents -/

/-- What a description has in a field. -/
@[reducible] def Field.Content : Field → Type
  | .start | .finish | .opens | .closes | .lasts => Option Float
  | .timing => Timing Float
  | .extend => Option Extend
  | .easing => Option Easing

def content (s : Spec Float) : (f : Field) → f.Content
  | .start => s.settings.start
  | .finish => s.settings.finish
  | .opens => s.settings.opens
  | .closes => s.settings.closes
  | .lasts => s.settings.lasts
  | .timing => s.timing
  | .extend => s.settings.extend
  | .easing => s.settings.easing

def put (s : Spec Float) : (f : Field) → f.Content → Spec Float
  | .start, c => { s with settings.start := c }
  | .finish, c => { s with settings.finish := c }
  | .opens, c => { s with settings.opens := c }
  | .closes, c => { s with settings.closes := c }
  | .lasts, c => { s with settings.lasts := c }
  | .timing, c => { s with timing := c }
  | .extend, c => { s with settings.extend := c }
  | .easing, c => { s with settings.easing := c }

/-- Reads the content of a field. -/
def Field.read (depth : Nat) (v : Json) : (f : Field) → Result f.Content
  | .start | .finish | .opens | .closes | .lasts => optional number v
  | .timing => Reader.timing depth v (spec depth v)
  | .extend => optional Reader.extend v
  | .easing => optional Reader.easing v

@[simp] theorem content_put (s : Spec Float) (f : Field) (c : f.Content) :
    content (put s f c) f = c := by
  cases f <;> rfl

theorem content_put_of_ne (s : Spec Float) {f g : Field} (h : g ≠ f) (c : g.Content) :
    content (put s g c) f = content s f := by
  cases f <;> cases g <;> first | rfl | exact absurd rfl h

theorem content_inj {s s' : Spec Float} (h : ∀ f, content s f = content s' f) : s = s' := by
  obtain ⟨⟨_, _, _, _, _, _, _⟩, _⟩ := s
  obtain ⟨⟨_, _, _, _, _, _, _⟩, _⟩ := s'
  obtain rfl := h .start
  obtain rfl := h .finish
  obtain rfl := h .opens
  obtain rfl := h .closes
  obtain rfl := h .lasts
  obtain rfl := h .timing
  obtain rfl := h .extend
  obtain rfl := h .easing
  rfl

theorem setField_eq_ok {depth : Nat} {s s' : Spec Float} {f : Field} {v : Json} :
    setField depth s f v (spec depth v) = .ok s' ↔
      ∃ c, f.read depth v = .ok c ∧ put s f c = s' := by
  have hput : setField depth s f v (spec depth v) = (f.read depth v).map (put s f) := by
    cases f <;> rfl
  rw [hput]
  cases f.read depth v with
  | error e => exact ⟨nofun, nofun⟩
  | ok c => exact ⟨fun h => ⟨c, rfl, Except.ok.inj h⟩, fun ⟨_, rfl, h⟩ => congrArg _ h⟩

/-- Null is what a field has from the start. -/
theorem Field.read_null (depth : Nat) (f : Field) :
    f.read depth .null = .ok (content {} f) := by
  cases f <;> rfl

/-! ## Entries -/

/-- The value that a field is given first. -/
def valueAt (f : Field) : List (Field × Json) → Json
  | [] => .null
  | (g, v) :: rest => if g = f then v else valueAt f rest

theorem valueAt_of_notMem {f : Field} {es : List (Field × Json)} (h : f ∉ es.map Prod.fst) :
    valueAt f es = .null := by
  induction es with
  | nil => rfl
  | cons e es ih =>
      obtain ⟨hne, hrest⟩ := List.ne_and_not_mem_of_not_mem_cons h
      rw [valueAt, if_neg fun heq => hne heq.symm, ih hrest]

theorem valueAt_of_mem {f : Field} {v : Json} {es : List (Field × Json)}
    (once : (es.map Prod.fst).Nodup) (h : (f, v) ∈ es) : valueAt f es = v := by
  induction es with
  | nil => cases h
  | cons e es ih =>
      obtain ⟨hnew, hrest⟩ := List.nodup_cons.mp once
      rcases List.mem_cons.mp h with rfl | h
      · rw [valueAt, if_pos rfl]
      · rw [valueAt, if_neg, ih hrest h]
        rintro rfl
        exact hnew (List.mem_map.mpr ⟨_, h, rfl⟩)

/-- Fields that are given once may be given in any order. -/
theorem valueAt_perm {es es' : List (Field × Json)} (once : (es.map Prod.fst).Nodup)
    (h : es.Perm es') (f : Field) : valueAt f es = valueAt f es' := by
  by_cases hf : f ∈ es.map Prod.fst
  · obtain ⟨⟨_, v⟩, hv, rfl⟩ := List.mem_map.mp hf
    have once' := (h.map Prod.fst).nodup_iff.mp once
    rw [valueAt_of_mem once hv, valueAt_of_mem once' (h.mem_iff.mp hv)]
  · have hf' : f ∉ es'.map Prod.fst := fun hmem => hf ((h.map Prod.fst).mem_iff.mpr hmem)
    rw [valueAt_of_notMem hf, valueAt_of_notMem hf']

theorem mem_keys_cons {f g : Field} (h : g ≠ f) {v : Json} {es : List (Field × Json)} :
    f ∈ ((g, v) :: es).map Prod.fst ↔ f ∈ es.map Prod.fst := by
  simp [h.symm]

/-- Sets the fields one after the other. -/
def setAll (depth : Nat) (s : Spec Float) : List (Field × Json) → Result (Spec Float)
  | [] => .ok s
  | (f, v) :: rest => do
    let s ← setField depth s f v (spec depth v)
    setAll depth s rest

/-- Fields that are given once do not get in the way of each other. -/
theorem setAll_eq_ok {depth : Nat} {s s' : Spec Float} {es : List (Field × Json)}
    (once : (es.map Prod.fst).Nodup) :
    setAll depth s es = .ok s' ↔ ∀ f : Field,
      if f ∈ es.map Prod.fst then f.read depth (valueAt f es) = .ok (content s' f)
      else content s' f = content s f := by
  induction es generalizing s with
  | nil =>
      simp only [setAll, List.map_nil, List.not_mem_nil, if_false]
      exact ⟨fun h _ => by rw [Except.ok.inj h],
        fun h => congrArg _ (content_inj fun f => (h f).symm)⟩
  | cons e es ih =>
      obtain ⟨g, v⟩ := e
      obtain ⟨hnew, hrest⟩ := List.nodup_cons.mp once
      simp only [setAll, bind_eq_ok, setField_eq_ok]
      constructor
      · rintro ⟨_, ⟨c, hc, rfl⟩, hes⟩ f
        have hf := ih hrest |>.mp hes f
        by_cases hgf : g = f
        · subst hgf
          rw [if_neg hnew, content_put] at hf
          rw [if_pos (by simp), valueAt, if_pos rfl, hc, hf]
        · rw [content_put_of_ne s hgf] at hf
          simp only [mem_keys_cons hgf, valueAt, if_neg hgf]
          exact hf
      · intro h
        have hg : g.read depth v = .ok (content s' g) := by
          simpa [valueAt] using h g
        refine ⟨_, ⟨_, hg, rfl⟩, (ih hrest).mpr fun f => ?_⟩
        by_cases hgf : g = f
        · subst hgf
          rw [if_neg hnew, content_put]
        · rw [content_put_of_ne s hgf]
          have hf := h f
          simp only [mem_keys_cons hgf, valueAt, if_neg hgf] at hf
          exact hf

/-- A description that is read from nothing. -/
theorem setAll_empty_eq_ok {depth : Nat} {s : Spec Float} {es : List (Field × Json)}
    (once : (es.map Prod.fst).Nodup) :
    setAll depth {} es = .ok s ↔ ∀ f : Field, f.read depth (valueAt f es) = .ok (content s f) := by
  rw [setAll_eq_ok once]
  refine forall_congr' fun f => ?_
  split
  · rfl
  · rename_i hf
    rw [valueAt_of_notMem hf, Field.read_null, Except.ok.injEq, eq_comm]

/-! ## Objects and arrays -/

/-- The entries of the known fields of an object. -/
def known (fields : List (Option String × Json)) : List (Field × Json) :=
  fields.filterMap fun (key, v) => (key.bind Field.ofKey?).map (·, v)

@[simp] theorem known_append (fields fields' : List (Option String × Json)) :
    known (fields ++ fields') = known fields ++ known fields' := by
  simp [known]

theorem known_cons_known {key : String} {f : Field} (hf : Field.ofKey? key = some f) (v : Json)
    (fields : List (Option String × Json)) :
    known ((some key, v) :: fields) = (f, v) :: known fields := by
  simp [known, hf]

theorem known_cons_unknown {key : String} (hkey : Field.ofKey? key = none) (v : Json)
    (fields : List (Option String × Json)) : known ((some key, v) :: fields) = known fields := by
  simp [known, hkey]

/-- The object can be read as far as its keys and its unknown fields go. -/
structure Regular (fields : List (Option String × Json)) : Prop where
  keys : ∀ e ∈ fields, e.1.isSome = true
  once : ((known fields).map Prod.fst).Nodup
  skipped : ∀ e ∈ fields, e.1.bind Field.ofKey? = none → e.2.isWhole = true

theorem regular_cons_known {key : String} {f : Field} (hf : Field.ofKey? key = some f) {v : Json}
    {fields : List (Option String × Json)} :
    Regular ((some key, v) :: fields) ↔ f ∉ (known fields).map Prod.fst ∧ Regular fields := by
  have honce : ((known ((some key, v) :: fields)).map Prod.fst).Nodup ↔
      f ∉ (known fields).map Prod.fst ∧ ((known fields).map Prod.fst).Nodup := by
    rw [known_cons_known hf, List.map_cons, List.nodup_cons]
  constructor
  · intro h
    exact ⟨(honce.mp h.once).1, fun e he => h.keys e (List.mem_cons_of_mem _ he),
      (honce.mp h.once).2, fun e he => h.skipped e (List.mem_cons_of_mem _ he)⟩
  · rintro ⟨hnew, h⟩
    refine ⟨List.forall_mem_cons.mpr ⟨rfl, h.keys⟩, honce.mpr ⟨hnew, h.once⟩, ?_⟩
    exact List.forall_mem_cons.mpr ⟨fun hnone => by simp [hf] at hnone, h.skipped⟩

theorem regular_cons_unknown {key : String} (hkey : Field.ofKey? key = none) {v : Json}
    {fields : List (Option String × Json)} :
    Regular ((some key, v) :: fields) ↔ v.isWhole = true ∧ Regular fields := by
  constructor
  · intro h
    refine ⟨h.skipped _ List.mem_cons_self hkey, fun e he => h.keys e (List.mem_cons_of_mem _ he),
      ?_, fun e he => h.skipped e (List.mem_cons_of_mem _ he)⟩
    rw [← known_cons_unknown hkey v]
    exact h.once
  · rintro ⟨hv, h⟩
    refine ⟨List.forall_mem_cons.mpr ⟨rfl, h.keys⟩, ?_,
      List.forall_mem_cons.mpr ⟨fun _ => hv, h.skipped⟩⟩
    rw [known_cons_unknown hkey]
    exact h.once

theorem specFields_eq_ok {depth : Nat} {given : List Field} {s s' : Spec Float}
    {fields : List (Option String × Json)} :
    specFields depth given s fields = .ok s' ↔
      Regular fields ∧ (∀ f ∈ (known fields).map Prod.fst, f ∉ given) ∧
        setAll depth s (known fields) = .ok s' := by
  induction fields generalizing given s with
  | nil =>
      rw [specFields]
      exact ⟨fun h => ⟨⟨by simp, by simp [known], by simp⟩, by simp [known], h⟩, fun h => h.2.2⟩
  | cons e fields ih =>
      obtain ⟨_ | key, v⟩ := e
      · rw [specFields]
        refine ⟨nofun, fun h => ?_⟩
        simpa using h.1.keys (none, v) List.mem_cons_self
      · cases hf : Field.ofKey? key with
        | none =>
            rw [specFields, known_cons_unknown hf, regular_cons_unknown hf]
            simp only [hf]
            split
            · rename_i hv
              rw [ih, and_iff_right hv]
            · rename_i hv
              exact ⟨nofun, fun h => absurd h.1.1 hv⟩
        | some f =>
            rw [specFields, known_cons_known hf, regular_cons_known hf]
            simp only [hf, setAll, List.map_cons, List.forall_mem_cons]
            split
            · rename_i hgiven
              exact ⟨nofun, fun h => absurd hgiven h.2.1.1⟩
            · rename_i hgiven
              simp only [bind_eq_ok, ih, List.mem_cons, not_or]
              constructor
              · rintro ⟨s₁, hs₁, hregular, hfresh, hset⟩
                exact ⟨⟨fun hmem => (hfresh f hmem).1 rfl, hregular⟩,
                  ⟨hgiven, fun g hg => (hfresh g hg).2⟩, s₁, hs₁, hset⟩
              · rintro ⟨⟨hnew, hregular⟩, ⟨-, hfresh⟩, s₁, hs₁, hset⟩
                refine ⟨s₁, hs₁, hregular, fun g hg => ⟨?_, hfresh g hg⟩, hset⟩
                rintro rfl
                exact hnew hg

theorem specItems_eq_ok {depth : Nat} {fields : List Field} {s s' : Spec Float}
    {items : List Json} :
    specItems depth fields s items = .ok s' ↔
      items.length ≤ fields.length ∧ setAll depth s (fields.zip items) = .ok s' := by
  induction items generalizing fields s with
  | nil =>
      rw [specItems, List.zip_nil_right]
      simp [setAll]
  | cons v items ih =>
      cases fields with
      | nil =>
          constructor
          · intro h
            cases h
          · rintro ⟨hlen, -⟩
            exact absurd hlen (Nat.not_succ_le_zero _)
      | cons f fields =>
          rw [specItems.eq_def, List.zip_cons_cons, setAll, bind_eq_ok, bind_eq_ok]
          simp only [ih, List.length_cons, Nat.add_le_add_iff_right]
          constructor
          · rintro ⟨s₁, hs₁, hlen, hset⟩
            exact ⟨hlen, s₁, hs₁, hset⟩
          · rintro ⟨hlen, s₁, hs₁, hset⟩
            exact ⟨s₁, hs₁, hlen, hset⟩

/-- The entries that a value gives when it is read as a description. -/
inductive Gives : Json → List (Field × Json) → Prop
  | object {fields : List (Option String × Json)} (h : Regular fields) :
      Gives (.object fields) (known fields)
  | array {items : List Json} (h : items.length ≤ Field.all.length) :
      Gives (.array items) (Field.all.zip items)

theorem Gives.once {v : Json} {es : List (Field × Json)} (h : Gives v es) :
    (es.map Prod.fst).Nodup := by
  cases h with
  | object h => exact h.once
  | array h =>
      rw [List.zip_eq_zip_take_min, List.map_fst_zip (by simp)]
      exact List.Nodup.sublist (List.take_sublist _ _) (by decide)

theorem Gives.unique {v : Json} {es es' : List (Field × Json)} (h : Gives v es)
    (h' : Gives v es') : es = es' := by
  cases h <;> cases h' <;> rfl

/-- **A description is read field by field**, whichever way its fields are given. -/
theorem spec_eq_ok {depth : Nat} {v : Json} {s : Spec Float} :
    spec depth v = .ok s ↔ depth < depthLimit ∧ ∃ es, Gives v es ∧
      ∀ f : Field, f.read (depth + 1) (valueAt f es) = .ok (content s f) := by
  cases v with
  | object fields =>
      rw [spec]
      constructor
      · intro h
        split at h
        · rename_i hdepth
          obtain ⟨hregular, -, hset⟩ := specFields_eq_ok.mp h
          exact ⟨hdepth, _, .object hregular, (setAll_empty_eq_ok hregular.once).mp hset⟩
        · cases h
      · rintro ⟨hdepth, es, hgives, hread⟩
        cases hgives with
        | object hregular =>
            rw [if_pos hdepth]
            exact specFields_eq_ok.mpr
              ⟨hregular, by simp, (setAll_empty_eq_ok hregular.once).mpr hread⟩
  | array items =>
      rw [spec]
      constructor
      · intro h
        split at h
        · rename_i hdepth
          obtain ⟨hlen, hset⟩ := specItems_eq_ok.mp h
          have hgives := Gives.array hlen
          exact ⟨hdepth, _, hgives, (setAll_empty_eq_ok hgives.once).mp hset⟩
        · cases h
      · rintro ⟨hdepth, es, hgives, hread⟩
        have honce := hgives.once
        cases hgives with
        | array hlen =>
            rw [if_pos hdepth]
            exact specItems_eq_ok.mpr ⟨hlen, (setAll_empty_eq_ok honce).mpr hread⟩
  | null => exact ⟨nofun, fun ⟨_, _, hgives, _⟩ => nomatch hgives⟩
  | bool b => exact ⟨nofun, fun ⟨_, _, hgives, _⟩ => nomatch hgives⟩
  | number n => exact ⟨nofun, fun ⟨_, _, hgives, _⟩ => nomatch hgives⟩
  | string content => exact ⟨nofun, fun ⟨_, _, hgives, _⟩ => nomatch hgives⟩
  | fault => exact ⟨nofun, fun ⟨_, _, hgives, _⟩ => nomatch hgives⟩

end Reader

end Inbetween
