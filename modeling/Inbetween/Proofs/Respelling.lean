import Inbetween.Proofs.Entries
import Inbetween.Proofs.Spellings
import Mathlib.Logic.Relation

/-!
# Other spellings of a description

An author may write the same description in many ways: with fields in another order, under their
other keys, with nulls, with fields that nobody knows, by position, with other names of modes, and
with other blanks. Each of these is one step here, which may be taken at the top or in a description
that drives another one. No step changes what is read. But whoever gives a field twice is refused,
however deep.
-/

namespace Inbetween

open Json (Document depthLimit)

/-! ## What can be kept -/

namespace Json

theorem isReadable_object {depth : Nat} {fields : List (Option String × Json)} :
    (object fields).isReadable depth = true ↔
      depth < depthLimit ∧ ∀ e ∈ fields, e.1.isSome = true ∧ e.2.isReadable (depth + 1) = true := by
  rw [isReadable, Bool.and_eq_true, decide_eq_true_eq]
  refine and_congr Iff.rfl ?_
  induction fields with
  | nil => simp [fieldsReadable]
  | cons e fields ih =>
      rw [fieldsReadable, Bool.and_eq_true, Bool.and_eq_true, ih, List.forall_mem_cons]

theorem isReadable_array {depth : Nat} {items : List Json} :
    (array items).isReadable depth = true ↔
      depth < depthLimit ∧ ∀ v ∈ items, v.isReadable (depth + 1) = true := by
  rw [isReadable, Bool.and_eq_true, decide_eq_true_eq]
  refine and_congr Iff.rfl ?_
  induction items with
  | nil => simp [itemsReadable]
  | cons v items ih => rw [itemsReadable, Bool.and_eq_true, ih, List.forall_mem_cons]

mutual

theorem isWhole_of_isReadable : ∀ {depth : Nat} {v : Json}, v.isReadable depth = true →
    v.isWhole = true
  | _, .null, _ => rfl
  | _, .bool _, _ => rfl
  | _, .number _, _ => rfl
  | _, .string _, _ => rfl
  | _, .array _, h => itemsWhole_of_readable (Bool.and_eq_true_iff.mp h).2
  | _, .object _, h => fieldsWhole_of_readable (Bool.and_eq_true_iff.mp h).2
  | _, .fault, h => h

theorem itemsWhole_of_readable : ∀ {depth : Nat} {items : List Json},
    itemsReadable depth items = true → itemsWhole items = true
  | _, [], _ => rfl
  | _, _ :: _, h =>
    have h := Bool.and_eq_true_iff.mp h
    Bool.and_eq_true_iff.mpr ⟨isWhole_of_isReadable h.1, itemsWhole_of_readable h.2⟩

theorem fieldsWhole_of_readable : ∀ {depth : Nat} {fields : List (Option String × Json)},
    fieldsReadable depth fields = true → fieldsWhole fields = true
  | _, [], _ => rfl
  | _, (_, _) :: _, h =>
    have h := Bool.and_eq_true_iff.mp h
    Bool.and_eq_true_iff.mpr
      ⟨isWhole_of_isReadable (Bool.and_eq_true_iff.mp h.1).2, fieldsWhole_of_readable h.2⟩

end

end Json

namespace Reader

/-! ## Steps -/

/-- The value of an unknown field can be skipped. The description of a driver is kept before it is
read, and its unknown fields are kept with it. -/
def Skippable : (depth : Nat) → Json → Prop
  | 0, v => v.isWhole = true
  | depth + 1, v => v.isReadable (depth + 2) = true

/-- The second text is another spelling of the first one, as a value of a field for modes. -/
def Field.Respelled : Field → String → String → Prop
  | .extend => Text.Respelled Extend.names
  | .easing => Text.Respelled Easing.names
  | _ => fun _ _ => False

/-- From one description to the other, the value `u` of a field becomes `u'`. -/
inductive Swaps (f : Field) (u u' : Json) : Json → Json → Prop
  | field {key : String} (named : Field.ofKey? key = some f)
      (before after : List (Option String × Json)) :
      Swaps f u u' (.object (before ++ (some key, u) :: after))
        (.object (before ++ (some key, u') :: after))
  | item {before after : List Json} (named : Field.all[before.length]? = some f) :
      Swaps f u u' (.array (before ++ u :: after)) (.array (before ++ u' :: after))

/-- The first `n` fields by position. A field that the object does not give is null. -/
def positional (n : Nat) (fields : List (Option String × Json)) : Json :=
  .array ((Field.all.take n).map fun f => valueAt f (known fields))

/-- One step from a spelling of a description, inside `depth` containers, to another one. -/
inductive Respells : (depth : Nat) → Json → Json → Prop
  | permuted {depth : Nat} {fields fields' : List (Option String × Json)}
      (h : fields.Perm fields') : Respells depth (.object fields) (.object fields')
  /-- A field is given by its other key. -/
  | rekeyed {depth : Nat} {key key' : String} {f : Field} (named : Field.ofKey? key = some f)
      (named' : Field.ofKey? key' = some f) (v : Json)
      (before after : List (Option String × Json)) :
      Respells depth (.object (before ++ (some key, v) :: after))
        (.object (before ++ (some key', v) :: after))
  | nullDropped {depth : Nat} {key : String} {f : Field} (named : Field.ofKey? key = some f)
      (before after : List (Option String × Json)) :
      Respells depth (.object (before ++ (some key, .null) :: after)) (.object (before ++ after))
  | nullAdded {depth : Nat} {key : String} {f : Field} (named : Field.ofKey? key = some f)
      {before after : List (Option String × Json)}
      (missing : f ∉ (known (before ++ after)).map Prod.fst) :
      Respells depth (.object (before ++ after)) (.object (before ++ (some key, .null) :: after))
  | unknownDropped {depth : Nat} {key : String} (unknown : Field.ofKey? key = none) (v : Json)
      (before after : List (Option String × Json)) :
      Respells depth (.object (before ++ (some key, v) :: after)) (.object (before ++ after))
  | unknownAdded {depth : Nat} {key : String} (unknown : Field.ofKey? key = none) {v : Json}
      (skippable : Skippable depth v) (before after : List (Option String × Json)) :
      Respells depth (.object (before ++ after)) (.object (before ++ (some key, v) :: after))
  /-- Fields are given by position, and nulls at the end are left out. -/
  | positioned {depth : Nat} {n : Nat} {fields : List (Option String × Json)}
      (rest : ∀ f ∈ Field.all.drop n, valueAt f (known fields) = .null) :
      Respells depth (.object fields) (positional n fields)
  | mode {depth : Nat} {f : Field} {s s' : String} {v v' : Json} (h : f.Respelled s s')
      (swaps : Swaps f (.string (some s)) (.string (some s')) v v') : Respells depth v v'
  /-- A step in the description of the driver. -/
  | driver {depth : Nat} {u u' v v' : Json} (h : Respells (depth + 1) u u')
      (swaps : Swaps .timing u u' v v') : Respells depth v v'

/-! ## Every step reads the same -/

/-- The value is read as the description, and can be kept if it is the driver of another one. -/
structure Stands (depth : Nat) (v : Json) (s : Spec Float) : Prop where
  read : spec depth v = .ok s
  kept : 0 < depth → v.isReadable depth = true

variable {depth : Nat} {s : Spec Float}

theorem read_congr {v v' : Json} {es es' : List (Field × Json)} (h : spec depth v = .ok s)
    (gives : Gives v es) (gives' : Gives v' es')
    (same : ∀ (f : Field) c, f.read (depth + 1) (valueAt f es) = .ok c →
      f.read (depth + 1) (valueAt f es') = .ok c) : spec depth v' = .ok s := by
  obtain ⟨hdepth, es₁, hes₁, hread⟩ := spec_eq_ok.mp h
  obtain rfl := hes₁.unique gives
  exact spec_eq_ok.mpr ⟨hdepth, es', gives', fun f => same f _ (hread f)⟩

theorem regular_of_read {fields : List (Option String × Json)}
    (h : spec depth (.object fields) = .ok s) : Regular fields := by
  obtain ⟨-, es, hgives, -⟩ := spec_eq_ok.mp h
  cases hgives with
  | object hregular => exact hregular

theorem known_perm {fields fields' : List (Option String × Json)} (h : fields.Perm fields') :
    (known fields).Perm (known fields') := h.filterMap _

theorem Regular.perm {fields fields' : List (Option String × Json)} (h : Regular fields)
    (perm : fields.Perm fields') : Regular fields' where
  keys e he := h.keys e (perm.mem_iff.mpr he)
  once := ((known_perm perm).map Prod.fst).nodup_iff.mp h.once
  skipped e he := h.skipped e (perm.mem_iff.mpr he)

/-- Objects whose fields have the same values are the same description. -/
theorem read_object {fields fields' : List (Option String × Json)}
    (h : spec depth (.object fields) = .ok s) (regular : Regular fields')
    (same : ∀ f : Field, valueAt f (known fields) = valueAt f (known fields')) :
    spec depth (.object fields') = .ok s :=
  read_congr h (.object (regular_of_read h)) (.object regular) fun f c hc => by rwa [← same f]

theorem Stands.permuted {fields fields' : List (Option String × Json)}
    (h : Stands depth (.object fields) s) (perm : fields.Perm fields') :
    Stands depth (.object fields') s where
  read := by
    have regular := regular_of_read h.read
    exact read_object h.read (regular.perm perm) (valueAt_perm regular.once (known_perm perm))
  kept hdepth := by
    obtain ⟨hlimit, hfields⟩ := Json.isReadable_object.mp (h.kept hdepth)
    exact Json.isReadable_object.mpr ⟨hlimit, fun e he => hfields e (perm.mem_iff.mpr he)⟩

/-- A field in the middle may as well be the first one. -/
theorem stands_middle {before after : List (Option String × Json)} {e : Option String × Json} :
    Stands depth (.object (before ++ e :: after)) s ↔
      Stands depth (.object (e :: (before ++ after))) s :=
  ⟨fun h => h.permuted List.perm_middle, fun h => h.permuted List.perm_middle.symm⟩

/-- The first field is there, whatever becomes of it. -/
theorem Stands.tail {e : Option String × Json} {fields : List (Option String × Json)}
    (h : Stands depth (.object (e :: fields)) s)
    (read : spec depth (.object fields) = .ok s) : Stands depth (.object fields) s where
  read := read
  kept hdepth := by
    obtain ⟨hlimit, hfields⟩ := Json.isReadable_object.mp (h.kept hdepth)
    exact Json.isReadable_object.mpr ⟨hlimit, (List.forall_mem_cons.mp hfields).2⟩

theorem Stands.cons {key : String} {v : Json} {fields : List (Option String × Json)}
    (h : Stands depth (.object fields) s) (hv : 0 < depth → v.isReadable (depth + 1) = true)
    (read : spec depth (.object ((some key, v) :: fields)) = .ok s) :
    Stands depth (.object ((some key, v) :: fields)) s where
  read := read
  kept hdepth := by
    obtain ⟨hlimit, hfields⟩ := Json.isReadable_object.mp (h.kept hdepth)
    exact Json.isReadable_object.mpr
      ⟨hlimit, List.forall_mem_cons.mpr ⟨⟨rfl, hv hdepth⟩, hfields⟩⟩

theorem Stands.rekeyed {key key' : String} {f : Field} (named : Field.ofKey? key = some f)
    (named' : Field.ofKey? key' = some f) {v : Json} {fields : List (Option String × Json)}
    (h : Stands depth (.object ((some key, v) :: fields)) s) :
    Stands depth (.object ((some key', v) :: fields)) s where
  read := by
    have regular := (regular_cons_known named).mp (regular_of_read h.read)
    refine read_object h.read ((regular_cons_known named').mpr regular) fun g => ?_
    rw [known_cons_known named, known_cons_known named']
  kept hdepth := by
    obtain ⟨hlimit, hfields⟩ := Json.isReadable_object.mp (h.kept hdepth)
    obtain ⟨⟨-, hv⟩, hrest⟩ := List.forall_mem_cons.mp hfields
    exact Json.isReadable_object.mpr ⟨hlimit, List.forall_mem_cons.mpr ⟨⟨rfl, hv⟩, hrest⟩⟩

/-- A null says nothing that a missing field does not say. -/
theorem valueAt_null {f : Field} {es : List (Field × Json)} (missing : f ∉ es.map Prod.fst)
    (g : Field) : valueAt g ((f, .null) :: es) = valueAt g es := by
  rw [valueAt]
  split
  · rename_i hfg
    rw [valueAt_of_notMem (hfg ▸ missing)]
  · rfl

theorem Stands.nullDropped {key : String} {f : Field} (named : Field.ofKey? key = some f)
    {fields : List (Option String × Json)}
    (h : Stands depth (.object ((some key, .null) :: fields)) s) :
    Stands depth (.object fields) s := by
  obtain ⟨missing, regular⟩ := (regular_cons_known named).mp (regular_of_read h.read)
  refine h.tail (read_object h.read regular fun g => ?_)
  rw [known_cons_known named, valueAt_null missing]

theorem Stands.nullAdded {key : String} {f : Field} (named : Field.ofKey? key = some f)
    {fields : List (Option String × Json)} (missing : f ∉ (known fields).map Prod.fst)
    (h : Stands depth (.object fields) s) :
    Stands depth (.object ((some key, .null) :: fields)) s := by
  have regular := (regular_cons_known (v := .null) named).mpr ⟨missing, regular_of_read h.read⟩
  refine h.cons (fun _ => rfl) (read_object h.read regular fun g => ?_)
  rw [known_cons_known named, valueAt_null missing]

theorem Stands.unknownDropped {key : String} (unknown : Field.ofKey? key = none) {v : Json}
    {fields : List (Option String × Json)} (h : Stands depth (.object ((some key, v) :: fields)) s) :
    Stands depth (.object fields) s := by
  obtain ⟨-, regular⟩ := (regular_cons_unknown unknown).mp (regular_of_read h.read)
  refine h.tail (read_object h.read regular fun g => ?_)
  rw [known_cons_unknown unknown]

theorem Skippable.isWhole {v : Json} (h : Skippable depth v) : v.isWhole = true := by
  cases depth with
  | zero => exact h
  | succ depth => exact Json.isWhole_of_isReadable h

theorem Stands.unknownAdded {key : String} (unknown : Field.ofKey? key = none) {v : Json}
    (skippable : Skippable depth v) {fields : List (Option String × Json)}
    (h : Stands depth (.object fields) s) :
    Stands depth (.object ((some key, v) :: fields)) s := by
  have regular := (regular_cons_unknown unknown).mpr ⟨skippable.isWhole, regular_of_read h.read⟩
  refine h.cons (fun hdepth => ?_) (read_object h.read regular fun g => ?_)
  · obtain ⟨depth, rfl⟩ := Nat.exists_eq_succ_of_ne_zero (Nat.pos_iff_ne_zero.mp hdepth)
    exact skippable
  · rw [known_cons_unknown unknown]

/-! ### Positions -/

/-- Fields that are given by position have the values that they have by key. -/
theorem valueAt_zip {fields : List Field} (once : fields.Nodup) (n : Nat) (value : Field → Json)
    (rest : ∀ f ∈ fields.drop n, value f = .null) :
    ∀ f ∈ fields, valueAt f (fields.zip ((fields.take n).map value)) = value f := by
  induction fields generalizing n with
  | nil => simp
  | cons g fields ih =>
      obtain ⟨hnew, honce⟩ := List.nodup_cons.mp once
      intro f hf
      cases n with
      | zero => rw [List.take_zero, List.map_nil, List.zip_nil_right, rest f hf]; rfl
      | succ n =>
          rw [List.take_succ_cons, List.map_cons, List.zip_cons_cons, valueAt]
          split
          · rename_i hgf
            rw [hgf]
          · rename_i hgf
            obtain rfl | hf := List.mem_cons.mp hf
            · exact absurd rfl hgf
            · exact ih honce n rest f hf

theorem Field.mem_all (f : Field) : f ∈ Field.all := by
  cases f <;> decide

theorem valueAt_mem (f : Field) (es : List (Field × Json)) :
    valueAt f es = .null ∨ (f, valueAt f es) ∈ es := by
  induction es with
  | nil => exact .inl rfl
  | cons e es ih =>
      rw [valueAt]
      split
      · rename_i hf
        exact .inr (hf ▸ List.mem_cons_self)
      · exact ih.imp id (List.mem_cons_of_mem _)

theorem Stands.positioned {n : Nat} {fields : List (Option String × Json)}
    (rest : ∀ f ∈ Field.all.drop n, valueAt f (known fields) = .null)
    (h : Stands depth (.object fields) s) : Stands depth (positional n fields) s where
  read := by
    have hlength : ((Field.all.take n).map fun f => valueAt f (known fields)).length ≤
        Field.all.length := by
      rw [List.length_map]
      exact List.length_take_le' n _
    refine read_congr h.read (.object (regular_of_read h.read)) (.array hlength) fun f c hc => ?_
    rwa [valueAt_zip (by decide) n _ rest f f.mem_all]
  kept hdepth := by
    obtain ⟨hlimit, hfields⟩ := Json.isReadable_object.mp (h.kept hdepth)
    refine Json.isReadable_array.mpr ⟨hlimit, fun v hv => ?_⟩
    obtain ⟨f, -, rfl⟩ := List.mem_map.mp hv
    obtain hnull | hmem := valueAt_mem f (known fields)
    · rw [hnull]
      rfl
    · obtain ⟨e, he, hkey⟩ := List.mem_filterMap.mp hmem
      obtain ⟨g, -, hg⟩ := Option.map_eq_some_iff.mp hkey
      rw [← (Prod.mk.inj hg).2]
      exact (hfields e he).2

/-! ### Values -/

theorem valueAt_swapped {f g : Field} (h : f ≠ g) (u u' : Json)
    (before after : List (Field × Json)) :
    valueAt g (before ++ (f, u) :: after) = valueAt g (before ++ (f, u') :: after) := by
  induction before with
  | nil => simp only [List.nil_append, valueAt, if_neg h]
  | cons e before ih => simp only [List.cons_append, valueAt, ih]

/-- What a swap does to the entries. -/
theorem Swaps.gives {f : Field} {u u' v v' : Json} (h : Swaps f u u' v v')
    {es : List (Field × Json)} (gives : Gives v es) :
    ∃ before after, es = before ++ (f, u) :: after ∧ Gives v' (before ++ (f, u') :: after) := by
  cases h with
  | field named before after =>
      cases gives with
      | object regular =>
          have hknown : ∀ w, known (before ++ (some _, w) :: after) =
              known before ++ (f, w) :: known after := fun w => by
            rw [known_append, known_cons_known named]
          refine ⟨known before, known after, hknown u, hknown u' ▸ .object ?_⟩
          have hfirst := regular.perm List.perm_middle
          refine Regular.perm ?_ List.perm_middle.symm
          exact (regular_cons_known named).mpr ((regular_cons_known named).mp hfirst)
  | @item before after named =>
      cases gives with
      | array hlength =>
          obtain ⟨hlt, hf⟩ := List.getElem?_eq_some_iff.mp named
          have hall : Field.all = Field.all.take before.length ++
              f :: Field.all.drop (before.length + 1) := by
            rw [← hf, List.getElem_cons_drop, List.take_append_drop]
          have hzip : ∀ w, Field.all.zip (before ++ w :: after) =
              (Field.all.take before.length).zip before ++
                (f, w) :: (Field.all.drop (before.length + 1)).zip after := by
            intro w
            conv_lhs => rw [hall]
            rw [List.zip_append (by simp; omega), List.zip_cons_cons]
          refine ⟨_, _, hzip u, hzip u' ▸ .array ?_⟩
          simpa using hlength

/-- A value may be swapped for one that reads the same. -/
theorem Stands.swapped {f : Field} {u u' v v' : Json} (h : Stands depth v s)
    (swaps : Swaps f u u' v v')
    (same : ∀ c, f.read (depth + 1) u = .ok c → f.read (depth + 1) u' = .ok c)
    (kept : 0 < depth → u'.isReadable (depth + 1) = true) : Stands depth v' s where
  read := by
    obtain ⟨-, es, gives, -⟩ := spec_eq_ok.mp h.read
    obtain ⟨before, after, rfl, gives'⟩ := swaps.gives gives
    refine read_congr h.read gives gives' fun g c hc => ?_
    by_cases hfg : f = g
    · subst hfg
      rw [valueAt_of_mem gives.once (List.mem_append_right _ List.mem_cons_self)] at hc
      rw [valueAt_of_mem gives'.once (List.mem_append_right _ List.mem_cons_self)]
      exact same c hc
    · rwa [← valueAt_swapped hfg u u']
  kept hdepth := by
    have hv := h.kept hdepth
    cases swaps with
    | field named before after =>
        obtain ⟨hlimit, hfields⟩ := Json.isReadable_object.mp hv
        refine Json.isReadable_object.mpr ⟨hlimit, ?_⟩
        rw [List.forall_mem_append, List.forall_mem_cons] at hfields ⊢
        exact ⟨hfields.1, ⟨rfl, kept hdepth⟩, hfields.2.2⟩
    | item named =>
        obtain ⟨hlimit, hitems⟩ := Json.isReadable_array.mp hv
        refine Json.isReadable_array.mpr ⟨hlimit, ?_⟩
        rw [List.forall_mem_append, List.forall_mem_cons] at hitems ⊢
        exact ⟨hitems.1, kept hdepth, hitems.2.2⟩

/-- A respelled mode is read as the same mode. -/
theorem Field.Respelled.read {f : Field} {s s' : String} (h : f.Respelled s s') (depth : Nat)
    {c : f.Content} (hc : f.read depth (.string (some s)) = .ok c) :
    f.read depth (.string (some s')) = .ok c := by
  cases f with
  | extend =>
      simp only [Field.read, optional, Reader.extend] at hc ⊢
      cases hmode : Extend.ofText? s with
      | none =>
          rw [hmode] at hc
          cases hc
      | some mode =>
          rw [hmode] at hc
          rw [Text.Respelled.named (fun _ _ => Extend.ofText?_eq_some) h hmode]
          exact hc
  | easing =>
      simp only [Field.read, optional, Reader.easing] at hc ⊢
      cases hmode : Easing.ofText? s with
      | none =>
          rw [hmode] at hc
          cases hc
      | some mode =>
          rw [hmode] at hc
          rw [Text.Respelled.named (fun _ _ => Easing.ofText?_eq_some) h hmode]
          exact hc
  | start => exact h.elim
  | finish => exact h.elim
  | opens => exact h.elim
  | closes => exact h.elim
  | lasts => exact h.elim
  | timing => exact h.elim

/-- Only objects and arrays are descriptions. -/
def IsContainer (v : Json) : Prop := (∃ fields, v = .object fields) ∨ ∃ items, v = .array items

theorem Swaps.isContainer {f : Field} {u u' v v' : Json} (h : Swaps f u u' v v') :
    IsContainer v ∧ IsContainer v' := by
  cases h with
  | field => exact ⟨.inl ⟨_, rfl⟩, .inl ⟨_, rfl⟩⟩
  | item => exact ⟨.inr ⟨_, rfl⟩, .inr ⟨_, rfl⟩⟩

theorem Respells.isContainer {v v' : Json} (h : Respells depth v v') :
    IsContainer v ∧ IsContainer v' := by
  cases h with
  | mode _ swaps => exact swaps.isContainer
  | driver _ swaps => exact swaps.isContainer
  | positioned => exact ⟨.inl ⟨_, rfl⟩, .inr ⟨_, rfl⟩⟩
  | _ => exact ⟨.inl ⟨_, rfl⟩, .inl ⟨_, rfl⟩⟩

/-- A container is a time ratio if it can be kept and is a description. -/
theorem timing_eq_ok {v : Json} (h : IsContainer v) {inner : Result (Spec Float)}
    {t : Timing Float} :
    timing depth v inner = .ok t ↔
      v.isReadable depth = true ∧ ∃ s, inner = .ok s ∧ .tween s.settings s.timing = t := by
  obtain ⟨fields, rfl⟩ | ⟨items, rfl⟩ := h
  all_goals
    simp only [timing, number]
    split
    · rename_i hreadable
      cases inner with
      | error e => simp
      | ok s => simp [hreadable]
    · rename_i hreadable
      simp [hreadable]

theorem Respells.stands {v v' : Json} (h : Respells depth v v') :
    ∀ {s : Spec Float}, Stands depth v s → Stands depth v' s := by
  induction h with
  | permuted perm => exact fun hv => hv.permuted perm
  | rekeyed named named' v before after =>
      exact fun hv => stands_middle.mpr ((stands_middle.mp hv).rekeyed named named')
  | nullDropped named before after => exact fun hv => (stands_middle.mp hv).nullDropped named
  | nullAdded named missing => exact fun hv => stands_middle.mpr (hv.nullAdded named missing)
  | unknownDropped unknown v before after =>
      exact fun hv => (stands_middle.mp hv).unknownDropped unknown
  | unknownAdded unknown skippable before after =>
      exact fun hv => stands_middle.mpr (hv.unknownAdded unknown skippable)
  | positioned rest => exact fun hv => hv.positioned rest
  | @mode depth _ _ _ _ _ hspelled swaps =>
      exact fun hv => hv.swapped swaps (fun _ hc => hspelled.read (depth + 1) hc) fun _ => rfl
  | @driver depth u u' v v' hinner swaps ih =>
      intro s hv
      obtain ⟨hu, hu'⟩ := hinner.isContainer
      -- The driver is read at the next depth, where it also has to be kept.
      have step : ∀ c, Field.read (depth + 1) u .timing = .ok c →
          u'.isReadable (depth + 1) = true ∧ Field.read (depth + 1) u' .timing = .ok c := by
        intro c hc
        obtain ⟨hkept, t, ht, rfl⟩ := (timing_eq_ok hu).mp hc
        obtain ⟨hread', hkept'⟩ := ih ⟨ht, fun _ => hkept⟩
        exact ⟨hkept' (Nat.succ_pos depth),
          (timing_eq_ok hu').mpr ⟨hkept' (Nat.succ_pos depth), t, hread', rfl⟩⟩
      have hread : Field.read (depth + 1) u .timing = .ok (content s .timing) := by
        obtain ⟨-, es, gives, hes⟩ := spec_eq_ok.mp hv.read
        obtain ⟨before, after, rfl, -⟩ := swaps.gives gives
        have htiming := hes .timing
        rwa [valueAt_of_mem gives.once (List.mem_append_right _ List.mem_cons_self)] at htiming
      exact hv.swapped swaps (fun c hc => (step c hc).2) fun _ => (step _ hread).1

/-! ## Fields that are given twice -/

/-- The value stands in a field of the description. -/
inductive Has (f : Field) : Json → Json → Prop
  | field {fields : List (Option String × Json)} {key : String} {u : Json}
      (named : Field.ofKey? key = some f) (h : (some key, u) ∈ fields) : Has f (.object fields) u
  | item {items : List Json} {i : Nat} {u : Json} (named : Field.all[i]? = some f)
      (h : items[i]? = some u) : Has f (.array items) u

/-- The value stands where a description is read: at the top, or as the driver of a description
that does. -/
inductive Drives (v : Json) : Json → Prop
  | top : Drives v v
  | inner {u u' : Json} (h : Drives v u) (has : Has .timing u u') : Drives v u'

/-- The object gives a field twice. -/
def Repeats (fields : List (Option String × Json)) : Prop :=
  ∃ f before key v between key' v' after,
    fields = before ++ (some key, v) :: (between ++ (some key', v') :: after) ∧
      Field.ofKey? key = some f ∧ Field.ofKey? key' = some f

theorem Has.mem {f : Field} {v u : Json} (h : Has f v u) {es : List (Field × Json)}
    (gives : Gives v es) : (f, u) ∈ es := by
  cases h with
  | field named h =>
      cases gives
      exact List.mem_filterMap.mpr ⟨_, h, by simp [named]⟩
  | @item _ i _ named h =>
      cases gives
      have hzip : (Field.all.zip _)[i]? = some (f, u) := List.getElem?_zip_eq_some.mpr ⟨named, h⟩
      exact List.mem_of_getElem? hzip

theorem Has.isContainer {f : Field} {v u : Json} (h : Has f v u) : IsContainer v := by
  cases h with
  | field => exact .inl ⟨_, rfl⟩
  | item => exact .inr ⟨_, rfl⟩

/-- If the top is read, so is every description that drives it. -/
theorem Drives.read {v u : Json} (h : Drives v u) (hv : spec 0 v = .ok s) (hu : IsContainer u) :
    ∃ depth s, spec depth u = .ok s := by
  induction h with
  | top => exact ⟨0, s, hv⟩
  | inner _ has ih =>
      obtain ⟨depth, s, hread⟩ := ih has.isContainer
      obtain ⟨-, es, gives, hes⟩ := spec_eq_ok.mp hread
      have htiming := hes .timing
      rw [valueAt_of_mem gives.once (has.mem gives)] at htiming
      obtain ⟨-, t, ht, -⟩ := (timing_eq_ok hu).mp htiming
      exact ⟨depth + 1, t, ht⟩

theorem Regular.not_repeats {fields : List (Option String × Json)} (h : Regular fields) :
    ¬ Repeats fields := by
  rintro ⟨f, before, key, v, between, key', v', after, rfl, named, named'⟩
  have once := h.once
  rw [known_append, known_cons_known named, known_append, known_cons_known named'] at once
  simp [List.nodup_append] at once

end Reader

/-! ## Texts -/

open Reader Relation

/-- One step from a text to another one: a blank is put between two tokens or taken away, or the
texts are of trees that are a step apart. -/
inductive TextStep : String → String → Prop
  | blankAdded {before after : List Char} {c : Char} (blank : c ∈ Json.blanks)
      (whole : .fault ∉ Json.tokens before)
      (apart : Json.tokens (before ++ after) = Json.tokens before ++ Json.tokens after) :
      TextStep (.ofList (before ++ after)) (.ofList (before ++ c :: after))
  | blankRemoved {before after : List Char} {c : Char} (blank : c ∈ Json.blanks)
      (whole : .fault ∉ Json.tokens before)
      (apart : Json.tokens (before ++ after) = Json.tokens before ++ Json.tokens after) :
      TextStep (.ofList (before ++ c :: after)) (.ofList (before ++ after))
  | tree {text text' : String} {v v' : Json} (h : Document.ofText text = ⟨v, false⟩)
      (h' : Document.ofText text' = ⟨v', false⟩) (step : Respells 0 v v') : TextStep text text'

theorem Spec.parse_of_spec {text : String} {v : Json} {s : Spec Float}
    (h : Document.ofText text = ⟨v, false⟩) (hv : spec 0 v = .ok s) :
    Spec.parse text = .ok s := by
  have hread : Spec.read text = .ok s := by
    simp only [Spec.read, document, h, hv]
    rfl
  rw [Spec.parse, hread]
  rfl

theorem TextStep.parse {text text' : String} (step : TextStep text text') {s : Spec Float}
    (h : Spec.parse text = .ok s) : Spec.parse text' = .ok s := by
  -- What is read depends on a text through its tokens only.
  have htokens : ∀ {cs cs' : List Char}, Json.tokens cs = Json.tokens cs' →
      Spec.parse (.ofList cs) = Spec.parse (.ofList cs') := by
    intro cs cs' heq
    simp only [Spec.parse, Spec.read, document, Document.ofText, String.toList_ofList, heq]
  cases step with
  | blankAdded blank whole apart =>
      rw [htokens (Json.tokens_insert_blank blank whole apart)]
      exact h
  | blankRemoved blank whole apart =>
      rw [← htokens (Json.tokens_insert_blank blank whole apart)]
      exact h
  | tree htext htext' step =>
      have hread := document_ok (Spec.read_of_parse h)
      rw [htext] at hread
      have hstands : Stands 0 _ s := ⟨hread, fun hdepth => absurd hdepth (Nat.lt_irrefl 0)⟩
      exact Spec.parse_of_spec htext' (step.stands hstands).read

/-- **All spellings are read alike.** If a text is accepted, so is every text that comes from it by
any number of steps, and it is read as the same description: with fields in another order or under
their other keys, with nulls and with fields that are unknown more or less, by position, with other
spellings of modes, at the top or in any driver, and with other blanks between tokens. But a text is
refused if anywhere in it, at the top or in a driver, an object gives a field twice, under whatever
keys and even if it is null. -/
theorem spellings_read_alike :
    (∀ text text' s, Spec.parse text = .ok s → ReflTransGen TextStep text text' →
      Spec.parse text' = .ok s) ∧
    ∀ text fields, Drives (Document.ofText text).value (.object fields) → Repeats fields →
      ∃ e, Spec.parse text = .error e := by
  constructor
  · intro text text' s h steps
    induction steps with
    | refl => exact h
    | tail _ step ih => exact step.parse ih
  · intro text fields drives repeats
    cases hparse : Spec.parse text with
    | error e => exact ⟨e, rfl⟩
    | ok s =>
        have hread := document_ok (Spec.read_of_parse hparse)
        obtain ⟨depth, t, ht⟩ := drives.read hread (.inl ⟨fields, rfl⟩)
        exact absurd repeats (regular_of_read ht).not_repeats

namespace Dialect

/-! A description whose driver is spelled anew, and one whose driver gives its curve twice. -/

def plainly : String := "\x7b\"start\":2,\"t\":\x7b\"easing\":\"linear\"\x7d\x7d"

def renamed : String := "\x7b\"start\":2,\"t\":\x7b\"easing\":\" Lerp\"\x7d\x7d"

/-- The driver has an unknown field. -/
def freely : String :=
  "\x7b\"start\":2,\"t\":\x7b\"note\":[],\"easing\":\" Lerp\"\x7d\x7d"

def twice : String :=
  "\x7b\"start\":2,\"t\":\x7b\"easing\":\"linear\",\"method\":null\x7d\x7d"

def start : Option String × Json := (some "start", .number ⟨false, [⟨2, by decide⟩], [], none⟩)

/-- Two trees that differ in the driver only. -/
theorem driven (u u' : Json) : Swaps .timing u u' (.object [start, (some "t", u)])
    (.object [start, (some "t", u')]) :=
  .field rfl [start] []

theorem reads_freely :
    Spec.parse freely = .ok ⟨{ start := some 2.0 }, .tween { easing := some .linear } .clock⟩ ∧
      ∃ e, Spec.parse twice = .error e := by
  have hplainly : Spec.parse plainly =
      .ok ⟨{ start := some 2.0 }, .tween { easing := some .linear } .clock⟩ := by decide +kernel
  have hnames : Field.easing.Respelled "linear" " Lerp" :=
    .renamed (b := .linear) (by decide) (by decide)
  have rename : TextStep plainly renamed :=
    .tree rfl rfl (.driver (.mode hnames (.field rfl [] [])) (driven _ _))
  have hskipped : Skippable 1 (.array []) := (by decide : (Json.array []).isReadable 2 = true)
  have note : TextStep renamed freely :=
    .tree rfl rfl (.driver (.unknownAdded rfl hskipped [] _) (driven _ _))
  refine ⟨spellings_read_alike.1 plainly freely _ hplainly (.tail (.single rename) note), ?_⟩
  refine spellings_read_alike.2 twice _ (.inner .top (.field rfl (.tail _ (.head _)))) ?_
  exact ⟨.easing, [], "easing", _, [], "method", _, [], rfl, rfl, rfl⟩

end Dialect

end Inbetween
