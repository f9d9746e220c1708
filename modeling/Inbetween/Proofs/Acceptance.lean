import Inbetween.Proofs.Rereading

/-!
# What is accepted

Whatever the spelling of an accepted text, its description has only finite numbers and no more
levels than the depth limit admits. So it can be written in the one spelling that is used for
writing, is read back from it, and gives this text again from then on.
-/

namespace Inbetween

open Json (Document)

namespace Reader

theorem bind_eq_ok {β γ : Type} {x : Result β} {f : β → Result γ} {c : γ} :
    (x >>= f) = .ok c ↔ ∃ b, x = .ok b ∧ f b = .ok c := by
  cases x with
  | error e => exact ⟨nofun, nofun⟩
  | ok b => exact ⟨fun h => ⟨b, rfl, h⟩, fun ⟨_, rfl, h⟩ => h⟩

/-! ## Values -/

theorem isFinite_of_number {v : Json} {x : Float} (h : number v = .ok x) : x.isFinite = true := by
  rw [number.eq_def] at h
  split at h
  · split at h
    · rename_i hread
      cases h
      exact Decimal.Numeral.isFinite_of_toFloat? hread
    · cases h
  · cases h

theorem isFinite_of_optional {v : Json} {o : Option Float} (h : optional number v = .ok o) :
    ∀ x ∈ o, x.isFinite = true := by
  rw [optional.eq_def] at h
  split at h
  · cases h
    simp
  · cases hnumber : number v with
    | error e =>
        rw [hnumber] at h
        cases h
    | ok x =>
        rw [hnumber] at h
        cases h
        rintro y ⟨⟩
        exact isFinite_of_number hnumber

/-- The numbers of the description are finite, and its further levels fit into `depth` containers.
-/
structure Fits (depth : Nat) (s : Spec Float) : Prop where
  settings : ∀ x ∈ s.settings.floats, x.isFinite = true
  timing : ∀ x ∈ s.timing.floats, x.isFinite = true
  levels : depth + s.timing.levels ≤ Json.depthLimit

theorem Fits.ofTiming {depth : Nat} {s : Spec Float} (hs : Fits depth s) {v : Json}
    {inner : Result (Spec Float)} (hinner : ∀ {s}, inner = .ok s → Fits (depth + 1) s)
    {t : Timing Float} (h : Reader.timing depth v inner = .ok t) :
    Fits depth { s with timing := t } := by
  rw [Reader.timing.eq_def] at h
  split at h
  · cases h
    exact ⟨hs.settings, by simp [Timing.floats], (Nat.le_add_right _ _).trans hs.levels⟩
  · split at h
    · split at h
      · rename_i hnumber
        cases h
        refine ⟨hs.settings, ?_, (Nat.le_add_right _ _).trans hs.levels⟩
        simpa [Timing.floats] using isFinite_of_number hnumber
      · rename_i hread _
        cases h
        have hfits := hinner rfl
        refine ⟨hs.settings, ?_, ?_⟩
        · exact List.forall_mem_append.mpr ⟨hfits.settings, hfits.timing⟩
        · have := hfits.levels
          rw [Timing.levels]
          omega
      · cases h
    · cases h

/-- A field that is set to a number is set to a finite one. -/
theorem Fits.ofNumber {depth : Nat} {v : Json} {s' : Spec Float} (set : Option Float → Spec Float)
    (hset : ∀ o, (∀ x ∈ o, x.isFinite = true) → Fits depth (set o))
    (h : (do return set (← optional number v)) = Except.ok s') : Fits depth s' := by
  obtain ⟨o, ho, hs'⟩ := bind_eq_ok.mp h
  cases hs'
  exact hset o (isFinite_of_optional ho)

/-- Setting a field keeps a description within its bounds, whatever the value was. -/
theorem Fits.setField {depth : Nat} {s s' : Spec Float} (hs : Fits depth s) {f : Field} {v : Json}
    {inner : Result (Spec Float)} (hinner : ∀ {s}, inner = .ok s → Fits (depth + 1) s)
    (h : setField depth s f v inner = .ok s') : Fits depth s' := by
  obtain ⟨hsettings, htiming, hlevels⟩ := hs
  obtain ⟨hstart, hfinish, hopens, hcloses, hlasts⟩ := Settings.forall_floats.mp hsettings
  cases f with
  | start =>
      refine Fits.ofNumber (fun o => { s with settings.start := o }) (fun o ho => ?_) h
      exact ⟨Settings.forall_floats.mpr ⟨ho, hfinish, hopens, hcloses, hlasts⟩, htiming, hlevels⟩
  | finish =>
      refine Fits.ofNumber (fun o => { s with settings.finish := o }) (fun o ho => ?_) h
      exact ⟨Settings.forall_floats.mpr ⟨hstart, ho, hopens, hcloses, hlasts⟩, htiming, hlevels⟩
  | opens =>
      refine Fits.ofNumber (fun o => { s with settings.opens := o }) (fun o ho => ?_) h
      exact ⟨Settings.forall_floats.mpr ⟨hstart, hfinish, ho, hcloses, hlasts⟩, htiming, hlevels⟩
  | closes =>
      refine Fits.ofNumber (fun o => { s with settings.closes := o }) (fun o ho => ?_) h
      exact ⟨Settings.forall_floats.mpr ⟨hstart, hfinish, hopens, ho, hlasts⟩, htiming, hlevels⟩
  | lasts =>
      refine Fits.ofNumber (fun o => { s with settings.lasts := o }) (fun o ho => ?_) h
      exact ⟨Settings.forall_floats.mpr ⟨hstart, hfinish, hopens, hcloses, ho⟩, htiming, hlevels⟩
  | timing =>
      obtain ⟨t, ht, hs'⟩ := bind_eq_ok.mp h
      cases hs'
      exact Fits.ofTiming ⟨hsettings, htiming, hlevels⟩ hinner ht
  | extend =>
      obtain ⟨mode, -, hs'⟩ := bind_eq_ok.mp h
      cases hs'
      exact ⟨hsettings, htiming, hlevels⟩
  | easing =>
      obtain ⟨mode, -, hs'⟩ := bind_eq_ok.mp h
      cases hs'
      exact ⟨hsettings, htiming, hlevels⟩

theorem fits_empty {depth : Nat} (h : depth ≤ Json.depthLimit) : Fits depth {} :=
  ⟨by simp [Settings.floats], by simp [Timing.floats], h⟩

mutual

theorem fits_spec {depth : Nat} {s : Spec Float} :
    ∀ {v : Json}, spec depth v = .ok s → Fits (depth + 1) s
  | .object fields, h => by
      rw [spec] at h
      split at h
      · exact fits_specFields (fits_empty ‹_›) h
      · cases h
  | .array items, h => by
      rw [spec] at h
      split at h
      · exact fits_specItems (fits_empty ‹_›) h
      · cases h
  | .null, h => by cases h
  | .bool _, h => by cases h
  | .number _, h => by cases h
  | .string _, h => by cases h
  | .fault, h => by cases h

theorem fits_specFields {depth : Nat} {given : List Field} {s s' : Spec Float} (hs : Fits depth s) :
    ∀ {fields : List (Option String × Json)}, specFields depth given s fields = .ok s' →
      Fits depth s'
  | [], h => by
      cases h
      exact hs
  | (none, _) :: _, h => by cases h
  | (some key, v) :: rest, h => by
      rw [specFields] at h
      split at h
      · split at h
        · exact fits_specFields hs h
        · cases h
      · split at h
        · cases h
        · obtain ⟨next, hnext, hrest⟩ := bind_eq_ok.mp h
          exact fits_specFields (hs.setField (fun hv => fits_spec hv) hnext) hrest

theorem fits_specItems {depth : Nat} {fields : List Field} {s s' : Spec Float}
    (hs : Fits depth s) :
    ∀ {items : List Json}, specItems depth fields s items = .ok s' → Fits depth s'
  | [], h => by
      cases h
      exact hs
  | v :: rest, h => by
      rw [specItems.eq_def] at h
      cases fields with
      | nil => cases h
      | cons f fields =>
          obtain ⟨next, hnext, hrest⟩ := bind_eq_ok.mp h
          exact fits_specItems (hs.setField (fun hv => fits_spec hv) hnext) hrest

end

/-! ## Lists -/

theorem forall_of_mapM {β γ : Type} {f : β → Result γ} {P : γ → Prop}
    (hf : ∀ {b c}, f b = .ok c → P c) {bs : List β} {cs : List γ} (h : bs.mapM f = .ok cs) :
    ∀ c ∈ cs, P c := by
  induction bs generalizing cs with
  | nil =>
      cases h
      simp
  | cons b bs ih =>
      rw [List.mapM_cons] at h
      obtain ⟨c, hc, hrest⟩ := bind_eq_ok.mp h
      obtain ⟨rest, hbs, heq⟩ := bind_eq_ok.mp hrest
      cases heq
      exact List.forall_mem_cons.mpr ⟨hf hc, ih hbs⟩

theorem mapM_written {β γ : Type} {write : γ → β} {read : β → Result γ} {cs : List γ}
    (h : ∀ c ∈ cs, read (write c) = .ok c) : (cs.map write).mapM read = .ok cs := by
  induction cs with
  | nil => rfl
  | cons c cs ih =>
      obtain ⟨hc, hcs⟩ := List.forall_mem_cons.mp h
      rw [List.map_cons, List.mapM_cons, hc, ih hcs]
      rfl

theorem fits_list {v : Json} {c : ChainSpec Float} (h : list spec 0 v = .ok c) :
    ∀ s ∈ c, Fits 2 s := by
  rw [list.eq_def] at h
  split at h
  · exact forall_of_mapM fits_spec h
  · cases h

/-! ## Texts -/

theorem document_ok {β : Type} {read : Json → Result β} {text : String} {b : β}
    (h : document read text = .ok b) : read (Document.ofText text).value = .ok b := by
  obtain ⟨b', hread, hend⟩ := bind_eq_ok.mp h
  split at hend
  · cases hend
  · cases hend
    exact hread

theorem document_text {β : Type} {read : Json → Result β} {v : Json} (hv : v.Proper) :
    document read v.text = read v := by
  rw [document, Json.Document.ofText_text hv]
  cases read v <;> rfl

end Reader

open Reader

theorem Spec.read_of_parse {text : String} {s : Spec Float} (h : Spec.parse text = .ok s) :
    Spec.read text = .ok s := by
  rw [Spec.parse] at h
  cases hread : Spec.read text with
  | error e =>
      rw [hread] at h
      cases h
  | ok s' =>
      rw [hread] at h
      cases h
      rfl

/-! ## Round trips -/

theorem Spec.parse_text {s : Spec Float} (hfloats : ∀ x ∈ s.floats, Restored x)
    (hlevels : s.levels ≤ Json.depthLimit) : Spec.parse s.toJson.text = .ok s := by
  have hread : Spec.read s.toJson.text = .ok s := by
    rw [Spec.read, Spec.toJson, document_text (Printer.proper_levels s.settings s.timing)]
    exact spec_levels (by rw [Nat.zero_add]; exact hlevels) hfloats
  rw [Spec.parse, hread]
  rfl

theorem ChainSpec.read_text {c : ChainSpec Float} (hfloats : ∀ s ∈ c, ∀ x ∈ s.floats, Restored x)
    (hlevels : ∀ s ∈ c, s.levels < Json.depthLimit) : ChainSpec.read c.toJson.text = .ok c := by
  have hproper : (ChainSpec.toJson c).Proper := by
    refine .array fun v hv => ?_
    obtain ⟨s, -, rfl⟩ := List.mem_map.mp hv
    exact Printer.proper_levels s.settings s.timing
  rw [ChainSpec.read, document_text hproper]
  refine mapM_written fun s hs => spec_levels ?_ (hfloats s hs)
  rw [Nat.add_comm]
  exact hlevels s hs

theorem Spec.fits_of_parse {text : String} {s : Spec Float} (h : Spec.parse text = .ok s) :
    (∀ x ∈ s.floats, x.isFinite = true) ∧ s.levels ≤ Json.depthLimit := by
  have hfits := fits_spec (document_ok (Spec.read_of_parse h))
  refine ⟨List.forall_mem_append.mpr ⟨hfits.settings, hfits.timing⟩, ?_⟩
  have := hfits.levels
  rw [Spec.levels]
  omega

theorem ChainSpec.fits_of_read {text : String} {c : ChainSpec Float}
    (h : ChainSpec.read text = .ok c) :
    ∀ s ∈ c, (∀ x ∈ s.floats, x.isFinite = true) ∧ s.levels < Json.depthLimit := by
  intro s hs
  have hfits := fits_list (document_ok h) s hs
  refine ⟨List.forall_mem_append.mpr ⟨hfits.settings, hfits.timing⟩, ?_⟩
  have := hfits.levels
  rw [Spec.levels]
  omega

/-- **Descriptions and chains survive their texts.** Let the written form of all finite numbers of a
set be read as these numbers. A description of such numbers that nests no more objects than may be
open at a time, or one less inside a chain, is read back from the text that is written for it. And
whatever text is accepted, in whatever spelling, its description has only finite numbers and nests
no deeper; so it is read back as well, if its numbers are of the set, and written as the same text
again. -/
theorem descriptions_round_trip (numbers : Set Float)
    (restored : ∀ x ∈ numbers, x.isFinite = true → Restored x) :
    (∀ s : Spec Float, (∀ x ∈ s.floats, x ∈ numbers ∧ x.isFinite = true) →
      s.levels ≤ Json.depthLimit → Spec.parse s.toJson.text = .ok s) ∧
    (∀ c : ChainSpec Float, (∀ s ∈ c, (∀ x ∈ s.floats, x ∈ numbers ∧ x.isFinite = true) ∧
      s.levels < Json.depthLimit) → ChainSpec.read c.toJson.text = .ok c) ∧
    (∀ text s, Spec.parse text = .ok s →
      (∀ x ∈ s.floats, x.isFinite = true) ∧ s.levels ≤ Json.depthLimit ∧
      ((∀ x ∈ s.floats, x ∈ numbers) → Spec.parse s.toJson.text = .ok s ∧
        (Spec.parse s.toJson.text).map (fun s => s.toJson.text) = .ok s.toJson.text)) ∧
    (∀ text c, ChainSpec.read text = .ok c →
      (∀ s ∈ c, (∀ x ∈ s.floats, x.isFinite = true) ∧ s.levels < Json.depthLimit) ∧
      ((∀ s ∈ c, ∀ x ∈ s.floats, x ∈ numbers) → ChainSpec.read c.toJson.text = .ok c ∧
        (ChainSpec.read c.toJson.text).map (fun c => (ChainSpec.toJson c).text) =
          .ok c.toJson.text)) := by
  have hall : ∀ s : Spec Float, (∀ x ∈ s.floats, x ∈ numbers ∧ x.isFinite = true) →
      ∀ x ∈ s.floats, Restored x := fun s hs x hx => restored x (hs x hx).1 (hs x hx).2
  have hspec : ∀ s : Spec Float, (∀ x ∈ s.floats, x ∈ numbers ∧ x.isFinite = true) →
      s.levels ≤ Json.depthLimit → Spec.parse s.toJson.text = .ok s :=
    fun s hs => Spec.parse_text (hall s hs)
  have hchain : ∀ c : ChainSpec Float, (∀ s ∈ c, (∀ x ∈ s.floats, x ∈ numbers ∧
      x.isFinite = true) ∧ s.levels < Json.depthLimit) → ChainSpec.read c.toJson.text = .ok c :=
    fun c hc => ChainSpec.read_text (fun s hs => hall s (hc s hs).1) fun s hs => (hc s hs).2
  refine ⟨hspec, hchain, fun text s h => ?_, fun text c h => ?_⟩
  · obtain ⟨hfinite, hlevels⟩ := Spec.fits_of_parse h
    refine ⟨hfinite, hlevels, fun hnumbers => ?_⟩
    have hparse := hspec s (fun x hx => ⟨hnumbers x hx, hfinite x hx⟩) hlevels
    exact ⟨hparse, by rw [hparse]; rfl⟩
  · have hfits := ChainSpec.fits_of_read h
    refine ⟨hfits, fun hnumbers => ?_⟩
    have hread := hchain c fun s hs =>
      ⟨fun x hx => ⟨hnumbers s hs x hx, (hfits s hs).1 x hx⟩, (hfits s hs).2⟩
    exact ⟨hread, by rw [hread]; rfl⟩

namespace Sway

/-- The spelling of an author: by position, with nulls, a second key, and an unknown field. -/
def spelled : String :=
  "[0.5, 2, null, null, 150e-2, " ++
    "\x7b\"t\": 0.25, \"note\": [], \"method\": \"Ease_Sine\"\x7d, \"reverse\"]"

def spec : Spec Float :=
  ⟨{ start := some 0.5, finish := some 2.0, lasts := some 1.5, extend := some .reverse },
    .tween { easing := some .inOutSine } (.fixed 0.25)⟩

theorem returns_from_both :
    Spec.parse spelled = .ok spec ∧ Spec.parse spec.toJson.text = .ok spec ∧
      ChainSpec.read (ChainSpec.toJson [spec, spec]).text = .ok [spec, spec] ∧
      spec.toJson.text ≠ spelled := by
  have hrestored : ∀ x ∈ spec.floats, x.isFinite = true ∧ Restored x := by decide +kernel
  have hspelled : Spec.parse spelled = .ok spec := by decide +kernel
  obtain ⟨-, hchain, htexts, -⟩ :=
    descriptions_round_trip {x | x ∈ spec.floats} fun x hx _ => (hrestored x hx).2
  have hwritten : Spec.parse spec.toJson.text = .ok spec :=
    ((htexts spelled spec hspelled).2.2 fun _ hx => hx).1
  have hboth : ∀ s ∈ [spec, spec], (∀ x ∈ s.floats, x ∈ spec.floats ∧ x.isFinite = true) ∧
      s.levels < Json.depthLimit := by
    have hone : (∀ x ∈ spec.floats, x ∈ spec.floats ∧ x.isFinite = true) ∧
        spec.levels < Json.depthLimit :=
      ⟨fun x hx => ⟨hx, (hrestored x hx).1⟩, by decide⟩
    simpa using hone
  exact ⟨hspelled, hwritten, hchain _ hboth, by decide +kernel⟩

end Sway

end Inbetween
