import Mathlib.Order.Interval.Set.UnorderedInterval
import Inbetween.Proofs.Cycles
import Inbetween.Proofs.Plans
import Inbetween.Proofs.Symmetries

/-!
# Ranges of tweens

Without rounding, and with roots that are taken exactly, the curves that take no sines and no
exponentials stay in the range from 0 to 1 at times within it, unless they are made to overshoot.
The bounce aside, they also rise all the way. Both are shown for one curve of each family and
carried over to the others by mirroring and gluing.

What an interpolation reports moves along with the progress of its curve, from its start towards its
end, so it stays between the two.
-/

namespace Inbetween

open Set

namespace Curve

/-! ## Mirrored and glued curves -/

section Shapes

variable {K : Type} [Field K] [LinearOrder K] [IsStrictOrderedRing K] {f g : K → K}

omit [LinearOrder K] [IsStrictOrderedRing K] in
theorem mirror_mirror (f : K → K) : mirror (mirror f) = f := by
  funext t
  simp only [mirror, sub_sub_cancel]

omit [LinearOrder K] [IsStrictOrderedRing K] in
theorem eq_mirror_comm : f = mirror g ↔ g = mirror f := by
  constructor
  · rintro rfl
    exact (mirror_mirror g).symm
  · rintro rfl
    exact (mirror_mirror f).symm

theorem one_sub_mem {t : K} (h : t ∈ Icc 0 1) : 1 - t ∈ Icc (0 : K) 1 :=
  ⟨sub_nonneg.mpr h.2, sub_le_self 1 h.1⟩

theorem mapsTo_mirror (h : MapsTo f (Icc 0 1) (Icc 0 1)) :
    MapsTo (mirror f) (Icc 0 1) (Icc 0 1) := by
  intro t ht
  exact one_sub_mem (h (one_sub_mem ht))

omit [IsStrictOrderedRing K] in
theorem not_mapsTo_of_neg {t : K} (h : 0 ≤ t) (h' : t ≤ 1) (hneg : f t < 0) :
    ¬ MapsTo f (Icc 0 1) (Icc 0 1) := by
  intro hmaps
  exact (hmaps ⟨h, h'⟩).1.not_gt hneg

theorem monotoneOn_mirror (h : MonotoneOn f (Icc 0 1)) : MonotoneOn (mirror f) (Icc 0 1) := by
  intro s hs t ht hst
  have hback : f (1 - t) ≤ f (1 - s) :=
    h (one_sub_mem ht) (one_sub_mem hs) (sub_le_sub_left hst 1)
  exact sub_le_sub_left hback 1

theorem double_mem {t : K} (h : t ∈ Icc 0 1) (hlt : t < 1 / 2) : 2 * t ∈ Icc (0 : K) 1 := by
  constructor
  · linarith [h.1]
  · linarith

theorem double_sub_mem {t : K} (h : t ∈ Icc 0 1) (hle : 1 / 2 ≤ t) :
    2 * t - 1 ∈ Icc (0 : K) 1 := by
  constructor
  · linarith
  · linarith [h.2]

theorem mapsTo_glue (hf : MapsTo f (Icc 0 1) (Icc 0 1)) (hg : MapsTo g (Icc 0 1) (Icc 0 1)) :
    MapsTo (glue f g) (Icc 0 1) (Icc 0 1) := by
  intro t ht
  rcases lt_or_ge t (1 / 2) with h | h
  · obtain ⟨hlow, hhigh⟩ := hf (double_mem ht h)
    rw [glue_of_lt f g h]
    constructor
    · linarith
    · linarith
  · obtain ⟨hlow, hhigh⟩ := hg (double_sub_mem ht h)
    rw [glue_of_le f g h]
    constructor
    · linarith
    · linarith

/-- The first half rises up to the middle of the range, where the second half takes over. -/
theorem monotoneOn_glue (hf : MapsTo f (Icc 0 1) (Icc 0 1)) (hg : MapsTo g (Icc 0 1) (Icc 0 1))
    (hfm : MonotoneOn f (Icc 0 1)) (hgm : MonotoneOn g (Icc 0 1)) :
    MonotoneOn (glue f g) (Icc 0 1) := by
  intro s hs t ht hst
  rcases lt_or_ge t (1 / 2) with htm | htm
  · have hsm : s < 1 / 2 := hst.trans_lt htm
    have hle : f (2 * s) ≤ f (2 * t) := hfm (double_mem hs hsm) (double_mem ht htm) (by linarith)
    rw [glue_of_lt f g hsm, glue_of_lt f g htm]
    linarith
  · rcases lt_or_ge s (1 / 2) with hsm | hsm
    · have hbelow := (hf (double_mem hs hsm)).2
      have habove := (hg (double_sub_mem ht htm)).1
      rw [glue_of_lt f g hsm, glue_of_le f g htm]
      linarith
    · have hle : g (2 * s - 1) ≤ g (2 * t - 1) :=
        hgm (double_sub_mem hs hsm) (double_sub_mem ht htm) (by linarith)
      rw [glue_of_le f g hsm, glue_of_le f g htm]
      linarith

/-- The first curve eases in, the second one eases out, and the third one does both. -/
structure Siblings (easeIn easeOut easeInOut : K → K) : Prop where
  mirrored : easeOut = mirror easeIn
  glued : easeInOut = glue easeIn easeOut

namespace Siblings

variable {h : K → K}

theorem mapsTo_out (s : Siblings f g h) (hf : MapsTo f (Icc 0 1) (Icc 0 1)) :
    MapsTo g (Icc 0 1) (Icc 0 1) := by
  rw [s.mirrored]
  exact mapsTo_mirror hf

theorem mapsTo_inOut (s : Siblings f g h) (hf : MapsTo f (Icc 0 1) (Icc 0 1)) :
    MapsTo h (Icc 0 1) (Icc 0 1) := by
  rw [s.glued]
  exact mapsTo_glue hf (s.mapsTo_out hf)

theorem monotoneOn_out (s : Siblings f g h) (hfm : MonotoneOn f (Icc 0 1)) :
    MonotoneOn g (Icc 0 1) := by
  rw [s.mirrored]
  exact monotoneOn_mirror hfm

theorem monotoneOn_inOut (s : Siblings f g h) (hf : MapsTo f (Icc 0 1) (Icc 0 1))
    (hfm : MonotoneOn f (Icc 0 1)) : MonotoneOn h (Icc 0 1) := by
  rw [s.glued]
  exact monotoneOn_glue hf (s.mapsTo_out hf) hfm (s.monotoneOn_out hfm)

end Siblings

/-- The curve before and after its range, held at 0 and at 1. -/
def held (f : K → K) (t : K) : K := if t < 0 then 0 else if 1 < t then 1 else f t

omit [IsStrictOrderedRing K] in
theorem held_of_lt (f : K → K) {t : K} (h : t < 0) : held f t = 0 := if_pos h

theorem held_of_gt (f : K → K) {t : K} (h : 1 < t) : held f t = 1 := by
  rw [held, if_neg (not_lt.mpr (zero_le_one.trans h.le)), if_pos h]

omit [IsStrictOrderedRing K] in
theorem held_of_mem (f : K → K) {t : K} (h : t ∈ Icc 0 1) : held f t = f t := by
  rw [held, if_neg (not_lt.mpr h.1), if_neg (not_lt.mpr h.2)]

theorem held_mem (hf : MapsTo f (Icc 0 1) (Icc 0 1)) (t : K) : held f t ∈ Icc (0 : K) 1 := by
  rcases lt_or_ge t 0 with h | h
  · rw [held_of_lt f h]
    exact ⟨le_rfl, zero_le_one⟩
  · rcases lt_or_ge 1 t with h' | h'
    · rw [held_of_gt f h']
      exact ⟨zero_le_one, le_rfl⟩
    · rw [held_of_mem f ⟨h, h'⟩]
      exact hf ⟨h, h'⟩

theorem monotone_held (hf : MapsTo f (Icc 0 1) (Icc 0 1)) (hfm : MonotoneOn f (Icc 0 1)) :
    Monotone (held f) := by
  intro s t hst
  rcases lt_or_ge s 0 with hs | hs
  · rw [held_of_lt f hs]
    exact (held_mem hf t).1
  · rcases lt_or_ge 1 t with ht | ht
    · rw [held_of_gt f ht]
      exact (held_mem hf s).2
    · have hs' : s ∈ Icc (0 : K) 1 := ⟨hs, hst.trans ht⟩
      have ht' : t ∈ Icc (0 : K) 1 := ⟨hs.trans hst, ht⟩
      rw [held_of_mem f hs', held_of_mem f ht']
      exact hfm hs' ht' hst

end Shapes

/-! ## One curve of each family -/

variable {K : Type} [Field K] [LinearOrder K] [IsStrictOrderedRing K] [FloorRing K] [Elementary K]

/-- The siblings of a family that does not overshoot. -/
theorem siblings_family (family : Easing.Family) (h : family ≠ .back) :
    Siblings (family.easeIn.apply : K → K) family.easeOut.apply family.easeInOut.apply where
  mirrored := eq_mirror_comm.mp family.easeIn_eq_mirror
  glued := Easing.Family.easeInOut_eq_glue_of_ne_back h

omit [IsStrictOrderedRing K] [FloorRing K] [Elementary K] in
theorem mapsTo_linear : MapsTo (linear : K → K) (Icc 0 1) (Icc 0 1) := fun _ ht => ht

omit [IsStrictOrderedRing K] [FloorRing K] [Elementary K] in
theorem monotoneOn_linear : MonotoneOn (linear : K → K) (Icc 0 1) := fun _ _ _ _ hst => hst

theorem mapsTo_inQuad : MapsTo (inQuad : K → K) (Icc 0 1) (Icc 0 1) := by
  rintro t ⟨h, h'⟩
  exact ⟨mul_nonneg h h, mul_le_one₀ h' h h'⟩

theorem monotoneOn_inQuad : MonotoneOn (inQuad : K → K) (Icc 0 1) := by
  rintro s ⟨hs, -⟩ t - hst
  exact mul_self_le_mul_self hs hst

theorem mapsTo_inCubic : MapsTo (inCubic : K → K) (Icc 0 1) (Icc 0 1) := by
  rintro t ⟨h, h'⟩
  exact ⟨mul_nonneg (mul_nonneg h h) h, mul_le_one₀ (mul_le_one₀ h' h h') h h'⟩

theorem monotoneOn_inCubic : MonotoneOn (inCubic : K → K) (Icc 0 1) := by
  rintro s ⟨hs, -⟩ t ⟨ht, -⟩ hst
  exact mul_le_mul (mul_self_le_mul_self hs hst) hst hs (mul_nonneg ht ht)

/-! ### Circles -/

section Circles

variable (roots : Elementary.ExactRoots K)

include roots

theorem sqrt_le_sqrt {x y : K} (hx : 0 ≤ x) (h : x ≤ y) :
    (Scalar.sqrt x : K) ≤ Scalar.sqrt y := by
  obtain ⟨-, hsx⟩ := roots x hx
  obtain ⟨hy, hsy⟩ := roots y (hx.trans h)
  show Elementary.sqrt x ≤ Elementary.sqrt y
  by_contra hlt
  have hsquares := mul_self_lt_mul_self hy (not_le.mp hlt)
  rw [hsx, hsy] at hsquares
  exact h.not_gt hsquares

theorem sqrt_mem {x : K} (h : x ∈ Icc 0 1) : (Scalar.sqrt x : K) ∈ Icc (0 : K) 1 := by
  obtain ⟨hx, hsx⟩ := roots x h.1
  refine ⟨hx, ?_⟩
  show Elementary.sqrt x ≤ 1
  by_contra hlt
  have hsquares := mul_self_lt_mul_self zero_le_one (not_le.mp hlt)
  rw [hsx, one_mul] at hsquares
  exact h.2.not_gt hsquares

theorem mapsTo_inCirc : MapsTo (inCirc : K → K) (Icc 0 1) (Icc 0 1) := by
  intro t ht
  have hroot := sqrt_mem roots (one_sub_mem (mapsTo_inQuad ht))
  show (1.0 : K) - Scalar.sqrt (1.0 - t * t) ∈ Icc (0 : K) 1
  rw [Scalar.exact_one]
  exact one_sub_mem hroot

theorem monotoneOn_inCirc : MonotoneOn (inCirc : K → K) (Icc 0 1) := by
  intro s hs t ht hst
  have hsquares : inQuad s ≤ inQuad t := monotoneOn_inQuad hs ht hst
  have hroots := sqrt_le_sqrt roots (one_sub_mem (mapsTo_inQuad ht)).1
    (sub_le_sub_left hsquares 1)
  show (1.0 : K) - Scalar.sqrt (1.0 - s * s) ≤ 1.0 - Scalar.sqrt (1.0 - t * t)
  rw [Scalar.exact_one]
  exact sub_le_sub_left hroots 1

end Circles

theorem siblings_circ : Siblings (inCirc : K → K) outCirc inOutCirc := by
  refine ⟨eq_mirror_comm.mp inCirc_eq_mirror, ?_⟩
  funext t
  have hdoubled : t * 2.0 < 1.0 ↔ t < 1 / 2 := by
    rw [lt_div_iff₀ two_pos]
    norm_num
  refine if_congr hdoubled ?_ ?_
  · have harg : t * 2.0 = 2 * t := by
      norm_num
      ring
    simp only [inCirc, harg]
    norm_num
    ring
  · have harg : t * 2.0 - 2.0 = 2 * t - 1 - 1.0 := by
      norm_num
      ring
    simp only [outCirc, harg]
    norm_num
    ring

/-! ### Hops -/

/-- A hop stays below 1 as far as it is this near to its lowest point. -/
theorem hop_mem (centre lift radius : K) {t : K} (hlift : 0 ≤ lift)
    (htop : 7.5625 * (radius * radius) + lift ≤ 1) (hlow : centre - radius ≤ t)
    (hhigh : t ≤ centre + radius) : hop centre lift t ∈ Icc (0 : K) 1 := by
  have hnear : |t - centre| ≤ radius := by
    rw [abs_sub_le_iff]
    constructor
    · linarith
    · linarith
  have hsquare : (t - centre) * (t - centre) ≤ radius * radius := by
    rw [← abs_mul_abs_self (t - centre)]
    exact mul_self_le_mul_self (abs_nonneg _) hnear
  have hpositive := mul_self_nonneg (t - centre)
  show (7.5625 : K) * (t - centre) * (t - centre) + lift ∈ Icc (0 : K) 1
  rw [mul_assoc]
  constructor
  · linarith
  · linarith

theorem mapsTo_outBounce : MapsTo (outBounce : K → K) (Icc 0 1) (Icc 0 1) := by
  rintro t ⟨h, h'⟩
  have hone : (1.0 : K) / bounceSpan = 4 / 11 := by norm_num [bounceSpan]
  have htwo : (2.0 : K) / bounceSpan = 8 / 11 := by norm_num [bounceSpan]
  have hlast : (2.5 : K) / bounceSpan = 10 / 11 := by norm_num [bounceSpan]
  -- At each seam, the hops on both sides of it are as high as 1.
  rw [outBounce, hone, htwo, hlast]
  rcases lt_or_ge t (4 / 11) with h₁ | h₁
  · have hfirst : (bounceGain : K) * t * t = hop 0 0 t := by
      rw [hop]
      ring
    rw [if_pos h₁, hfirst]
    apply hop_mem 0 0 (4 / 11) le_rfl
    · norm_num
    · linarith
    · linarith
  · rw [if_neg h₁.not_gt]
    rcases lt_or_ge t (8 / 11) with h₂ | h₂
    · rw [if_pos h₂]
      apply hop_mem (1.5 / bounceSpan) 0.75 (2 / 11) (by norm_num)
      all_goals norm_num [bounceSpan]
      · linarith
      · linarith
    · rw [if_neg h₂.not_gt]
      rcases lt_or_ge t (10 / 11) with h₃ | h₃
      · rw [if_pos h₃]
        apply hop_mem (2.25 / bounceSpan) 0.9375 (1 / 11) (by norm_num)
        all_goals norm_num [bounceSpan]
        · linarith
        · linarith
      · rw [if_neg h₃.not_gt]
        apply hop_mem (2.625 / bounceSpan) 0.984375 (1 / 22) (by norm_num)
        all_goals norm_num [bounceSpan]
        · linarith
        · linarith

theorem mapsTo_inBounce : MapsTo (inBounce : K → K) (Icc 0 1) (Icc 0 1) := by
  rw [inBounce_eq_mirror]
  exact mapsTo_mirror mapsTo_outBounce

/-! ### Overshooting -/

theorem not_mapsTo_inBack : ¬ MapsTo (inBack : K → K) (Icc 0 1) (Icc 0 1) := by
  have hneg : (inBack (3 / 10) : K) < 0 := by norm_num [inBack, overshoot]
  exact not_mapsTo_of_neg (by norm_num) (by norm_num) hneg

theorem not_mapsTo_outBack : ¬ MapsTo (outBack : K → K) (Icc 0 1) (Icc 0 1) := by
  intro h
  apply not_mapsTo_inBack (K := K)
  have hmirror : (inBack : K → K) = mirror outBack := Easing.Family.easeIn_eq_mirror .back
  rw [hmirror]
  exact mapsTo_mirror h

theorem not_mapsTo_inOutBack : ¬ MapsTo (inOutBack : K → K) (Icc 0 1) (Icc 0 1) := by
  have hneg : (inOutBack (1 / 10) : K) < 0 := by
    have hfirst : (1 / 10 : K) * 2.0 < 1.0 := by norm_num
    rw [inOutBack, if_pos hfirst]
    norm_num [overshoot, wideOvershoot]
  exact not_mapsTo_of_neg (by norm_num) (by norm_num) hneg

end Curve

/-! ## Modes -/

namespace Easing

open Curve

/-- The curve takes sines or exponentials. -/
def isTranscendental : Easing → Bool
  | .cosine | .sine | .exponential | .inSine | .outSine | .inOutSine => true
  | _ => false

/-- The curve is linear, quadratic, cubic or circular. -/
def rises : Easing → Bool
  | .linear | .inQuad | .outQuad | .inOutQuad | .inCubic | .outCubic | .inOutCubic => true
  | .inCirc | .outCirc | .inOutCirc => true
  | _ => false

theorem isTranscendental_of_rises {mode : Easing} (h : mode.rises = true) :
    mode.isTranscendental = false ∧ mode.overshoots = false := by
  cases mode <;> first | exact ⟨rfl, rfl⟩ | cases h

variable {K : Type} [Field K] [LinearOrder K] [IsStrictOrderedRing K] [FloorRing K] [Elementary K]

theorem mapsTo_apply (roots : Elementary.ExactRoots K) {mode : Easing}
    (halgebraic : mode.isTranscendental = false) (hstays : mode.overshoots = false) :
    MapsTo (mode.apply : K → K) (Icc 0 1) (Icc 0 1) := by
  have quad := siblings_family (K := K) .quad nofun
  have cubic := siblings_family (K := K) .cubic nofun
  have bounce := siblings_family (K := K) .bounce nofun
  cases mode with
  | linear => exact mapsTo_linear
  | inQuad => exact mapsTo_inQuad
  | outQuad => exact quad.mapsTo_out mapsTo_inQuad
  | inOutQuad => exact quad.mapsTo_inOut mapsTo_inQuad
  | inCubic => exact mapsTo_inCubic
  | outCubic => exact cubic.mapsTo_out mapsTo_inCubic
  | inOutCubic => exact cubic.mapsTo_inOut mapsTo_inCubic
  | inCirc => exact mapsTo_inCirc roots
  | outCirc => exact siblings_circ.mapsTo_out (mapsTo_inCirc roots)
  | inOutCirc => exact siblings_circ.mapsTo_inOut (mapsTo_inCirc roots)
  | inBounce => exact mapsTo_inBounce
  | outBounce => exact mapsTo_outBounce
  | inOutBounce => exact bounce.mapsTo_inOut mapsTo_inBounce
  | inBack => cases hstays
  | outBack => cases hstays
  | inOutBack => cases hstays
  | _ => cases halgebraic

theorem not_mapsTo_apply {mode : Easing} (h : mode.overshoots = true) :
    ¬ MapsTo (mode.apply : K → K) (Icc 0 1) (Icc 0 1) := by
  cases mode with
  | inBack => exact not_mapsTo_inBack
  | outBack => exact not_mapsTo_outBack
  | inOutBack => exact not_mapsTo_inOutBack
  | _ => cases h

theorem monotoneOn_apply (roots : Elementary.ExactRoots K) {mode : Easing}
    (h : mode.rises = true) : MonotoneOn (mode.apply : K → K) (Icc 0 1) := by
  have quad := siblings_family (K := K) .quad nofun
  have cubic := siblings_family (K := K) .cubic nofun
  cases mode with
  | linear => exact monotoneOn_linear
  | inQuad => exact monotoneOn_inQuad
  | outQuad => exact quad.monotoneOn_out monotoneOn_inQuad
  | inOutQuad => exact quad.monotoneOn_inOut mapsTo_inQuad monotoneOn_inQuad
  | inCubic => exact monotoneOn_inCubic
  | outCubic => exact cubic.monotoneOn_out monotoneOn_inCubic
  | inOutCubic => exact cubic.monotoneOn_inOut mapsTo_inCubic monotoneOn_inCubic
  | inCirc => exact monotoneOn_inCirc roots
  | outCirc => exact siblings_circ.monotoneOn_out (monotoneOn_inCirc roots)
  | inOutCirc =>
      exact siblings_circ.monotoneOn_inOut (mapsTo_inCirc roots) (monotoneOn_inCirc roots)
  | _ => cases h

end Easing

/-! ## Reported values -/

section Levels

open Act Evaluate

variable {K : Type} [Field K] [LinearOrder K] [IsStrictOrderedRing K] [FloorRing K] [Elementary K]
  {V : Vocabulary} {M : Type} {x y : K}

namespace Curve

theorem lerp_mem {u : K} (h : u ∈ Icc 0 1) : lerp x y u ∈ uIcc x y := by
  rcases le_total x y with hxy | hxy
  · have hspan := sub_nonneg.mpr hxy
    rw [uIcc_of_le hxy]
    constructor
    · exact le_add_of_nonneg_right (mul_nonneg hspan h.1)
    · have hle := mul_le_of_le_one_right hspan h.2
      show x + (y - x) * u ≤ y
      linarith
  · have hspan := sub_nonpos.mpr hxy
    rw [uIcc_of_ge hxy]
    constructor
    · have hle := mul_le_mul_of_nonpos_left h.2 hspan
      show y ≤ x + (y - x) * u
      linarith
    · exact add_le_of_nonpos_right (mul_nonpos_of_nonpos_of_nonneg hspan h.1)

theorem monotone_lerp (h : x ≤ y) : Monotone (lerp x y) := by
  intro u v huv
  exact add_le_add_right (mul_le_mul_of_nonneg_left huv (sub_nonneg.mpr h)) x

theorem antitone_lerp (h : y ≤ x) : Antitone (lerp x y) := by
  intro u v huv
  exact add_le_add_right (mul_le_mul_of_nonpos_left huv (sub_nonpos.mpr h)) x

end Curve

theorem Phase.blend_mem {phase : Phase K} {mode : Easing}
    (h : ∀ r, phase = .along r → mode.apply r ∈ Icc (0 : K) 1) :
    (phase.blend mode x y).get ∈ uIcc x y := by
  cases phase with
  | before => exact left_mem_uIcc
  | past => exact right_mem_uIcc
  | along r => exact Curve.lerp_mem (h r rfl)

/-- What is reported depends on the progress that is held at both ends. -/
theorem Level.get_sampleAt_constant (mode : Easing) (t : K) :
    (Level.sampleAt ⟨x, y, mode, .constant⟩ t).get =
      Curve.lerp x y (Curve.held mode.apply t) := by
  rw [Level.sampleAt, Extend.normalize, Scalar.exact_zero, Scalar.exact_one]
  rcases lt_or_ge t 0 with hneg | hpos
  · rw [if_pos hneg, Curve.held_of_lt _ hneg, Curve.lerp, mul_zero, add_zero]
    rfl
  · rcases lt_or_ge 1 t with hpast | hle
    · rw [if_neg hpos.not_gt, if_pos hpast, Curve.held_of_gt _ hpast, Curve.lerp, mul_one,
        add_sub_cancel]
      rfl
    · rw [if_neg hpos.not_gt, if_neg hle.not_gt, Curve.held_of_mem _ ⟨hpos, hle⟩]
      rfl

/-- **Tweens stay between their ends.** Among the curves without sines and exponentials, those that
do not overshoot are those that stay in the range from 0 to 1. Along them an interpolation that does
not extrapolate reports a value between the two values that it has read, but for the ratios that
repetition tolerates. If it holds its ends and its curve is no bounce either, the value moves from
the start to the end as the ratio grows. -/
theorem interpolations_stay_between (roots : Elementary.ExactRoots K) :
    (∀ mode : Easing, mode.isTranscendental = false →
      (MapsTo (mode.apply : K → K) (Icc 0 1) (Icc 0 1) ↔ mode.overshoots = false)) ∧
    (∀ (host : Host K V M) (clock : Clock K) (i : Interpolation K V) (t x y : K)
        (w w₁ w₂ w₃ : World K V M),
      i.easing.isTranscendental = false → i.easing.overshoots = false →
      (i.extend = .constant ∨ i.extend = .reverse ∨
        i.extend = .repeating ∧ ¬ (1 < t ∧ t ≤ 1.0001)) →
      (ratio clock i.time).Yields host w t w₁ →
      host.Answers (.read i.start clock) w₁ x w₂ →
      host.Answers (.read i.finish clock) w₂ y w₃ →
      ∃ s, (interpolation clock i).Yields host w s w₃ ∧
        s = Level.sampleAt ⟨x, y, i.easing, i.extend⟩ t ∧ s.get ∈ uIcc x y) ∧
    ∀ (mode : Easing) (x y : K), mode.rises = true →
      (∀ t < 0, Level.sampleAt ⟨x, y, mode, .constant⟩ t = .value x) ∧
      (∀ t > 1, Level.sampleAt ⟨x, y, mode, .constant⟩ t = .ended y) ∧
      (x ≤ y → Monotone fun t => (Level.sampleAt ⟨x, y, mode, .constant⟩ t).get) ∧
      (y ≤ x → Antitone fun t => (Level.sampleAt ⟨x, y, mode, .constant⟩ t).get) := by
  refine ⟨?_, ?_, ?_⟩
  · intro mode halgebraic
    constructor
    · intro hmaps
      by_contra hstays
      exact Easing.not_mapsTo_apply (Bool.of_not_eq_false hstays) hmaps
    · intro hstays
      exact Easing.mapsTo_apply roots halgebraic hstays
  · intro host clock i t x y w w₁ w₂ w₃ halgebraic hstays hmode hratio hstart hfinish
    have hyields := yields_interpolation.mpr ⟨t, w₁, x, w₂, y, hratio, hstart, hfinish, rfl⟩
    refine ⟨_, hyields, rfl, Phase.blend_mem ?_⟩
    intro r hr
    have hmem : r ∈ Icc (0 : K) 1 := Extend.mem_of_normalize_eq_along hmode hr
    exact Easing.mapsTo_apply roots halgebraic hstays hmem
  · intro mode x y hrises
    obtain ⟨halgebraic, hstays⟩ := Easing.isTranscendental_of_rises hrises
    have hheld := Curve.monotone_held (Easing.mapsTo_apply roots halgebraic hstays)
      (Easing.monotoneOn_apply roots hrises)
    simp only [Level.get_sampleAt_constant]
    refine ⟨?_, ?_, ?_, ?_⟩
    · intro t hneg
      rw [Level.sampleAt, Extend.normalize, Scalar.exact_zero, if_pos hneg]
      rfl
    · intro t hpast
      have hpos : ¬ t < 0 := (zero_le_one.trans (le_of_lt hpast)).not_gt
      rw [Level.sampleAt, Extend.normalize, Scalar.exact_zero, Scalar.exact_one, if_neg hpos,
        if_pos hpast]
      rfl
    · intro hxy
      exact (Curve.monotone_lerp hxy).comp hheld
    · intro hyx
      exact (Curve.antitone_lerp hyx).comp_monotone hheld

end Levels

/-! ## A descent along a circle -/

namespace Descent

open Act Evaluate

def vocabulary : Vocabulary := ⟨Empty, Empty, Empty⟩

def host : Host ℝ vocabulary Unit := ⟨Empty.elim, Empty.elim, Empty.elim⟩

def world : World ℝ vocabulary Unit := { memory := () }

/-- A reversing interpolation along a circle. -/
def interpolation (t x y : ℝ) : Interpolation ℝ vocabulary where
  start := .constant x
  finish := .constant y
  time := .slot (.constant t)
  easing := .inOutCirc
  extend := .reverse

/-- On the way back the value is between both ends. If the interpolation were to hold its ends, the
value would fall. -/
theorem stays_between_real :
    MapsTo (Easing.inOutCirc.apply : ℝ → ℝ) (Icc 0 1) (Icc 0 1) ∧
    (∃ s, (Evaluate.interpolation ⟨0, 0⟩ (interpolation (7 / 4) 10 2)).Yields host world s world ∧
      s.get ∈ uIcc (10 : ℝ) 2) ∧
    Antitone fun t : ℝ => (Level.sampleAt ⟨10, 2, .inOutCirc, .constant⟩ t).get := by
  obtain ⟨range, between, rises⟩ :=
    interpolations_stay_between (V := vocabulary) (M := Unit) Elementary.exactRoots_real
  have hratio : (ratio ⟨0, 0⟩ (interpolation (7 / 4) 10 2).time).Yields host world (7 / 4) world :=
    ⟨1, rfl⟩
  have hread : ∀ v : ℝ, host.Answers (.read (.constant v) ⟨0, 0⟩) world v world :=
    fun _ => ⟨1, rfl⟩
  refine ⟨(range .inOutCirc rfl).mpr rfl, ?_, ?_⟩
  · obtain ⟨s, hyields, -, hmem⟩ := between host ⟨0, 0⟩ (interpolation (7 / 4) 10 2) (7 / 4) 10 2
      world world world world rfl rfl (Or.inr (Or.inl rfl)) hratio (hread 10) (hread 2)
    exact ⟨s, hyields, hmem⟩
  · obtain ⟨-, -, -, falls⟩ := rises .inOutCirc 10 2 rfl
    exact falls (by norm_num)

end Descent

end Inbetween
