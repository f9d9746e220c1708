import Inbetween.Easing.Curve
import Inbetween.Error
import Inbetween.Text.Blank

/-!
# Easing modes

A mode selects a curve. It has a canonical name, a stable numeric code, and is also found under the
names that authors use: `ease_sine` for the curve that eases in and out, `ease_in_sine` and
`ease_out_sine` for the one-sided ones.
-/

namespace Inbetween

inductive Easing where
  | linear
  /-- An old name of the curve of `inSine`. -/
  | cosine
  /-- An old name of the curve of `outSine`. -/
  | sine
  | exponential
  | inCirc
  | outCirc
  | inOutCirc
  | inBack
  | outBack
  | inOutBack
  | inBounce
  | outBounce
  | inOutBounce
  | inSine
  | outSine
  | inOutSine
  | inQuad
  | outQuad
  | inOutQuad
  | inCubic
  | outCubic
  | inOutCubic
  deriving DecidableEq, Repr, Inhabited

namespace Easing

/-- All modes in the order of their codes. -/
def all : List Easing :=
  [.linear, .cosine, .sine, .exponential, .inCirc, .outCirc, .inOutCirc, .inBack, .outBack,
   .inOutBack, .inBounce, .outBounce, .inOutBounce, .inSine, .outSine, .inOutSine, .inQuad,
   .outQuad, .inOutQuad, .inCubic, .outCubic, .inOutCubic]

def name : Easing → String
  | .linear => "linear"
  | .cosine => "cosine"
  | .sine => "sine"
  | .exponential => "exponential"
  | .inCirc => "in_circ"
  | .outCirc => "out_circ"
  | .inOutCirc => "in_out_circ"
  | .inBack => "in_back"
  | .outBack => "out_back"
  | .inOutBack => "in_out_back"
  | .inBounce => "in_bounce"
  | .outBounce => "out_bounce"
  | .inOutBounce => "in_out_bounce"
  | .inSine => "in_sine"
  | .outSine => "out_sine"
  | .inOutSine => "in_out_sine"
  | .inQuad => "in_quad"
  | .outQuad => "out_quad"
  | .inOutQuad => "in_out_quad"
  | .inCubic => "in_cubic"
  | .outCubic => "out_cubic"
  | .inOutCubic => "in_out_cubic"

/-- The curve that a mode selects. -/
def apply {α : Type} [Scalar α] : Easing → α → α
  | .linear => Curve.linear
  | .cosine | .inSine => Curve.inSine
  | .sine | .outSine => Curve.outSine
  | .inOutSine => Curve.inOutSine
  | .exponential => Curve.exponential
  | .inCirc => Curve.inCirc
  | .outCirc => Curve.outCirc
  | .inOutCirc => Curve.inOutCirc
  | .inBack => Curve.inBack
  | .outBack => Curve.outBack
  | .inOutBack => Curve.inOutBack
  | .inBounce => Curve.inBounce
  | .outBounce => Curve.outBounce
  | .inOutBounce => Curve.inOutBounce
  | .inQuad => Curve.inQuad
  | .outQuad => Curve.outQuad
  | .inOutQuad => Curve.inOutQuad
  | .inCubic => Curve.inCubic
  | .outCubic => Curve.outCubic
  | .inOutCubic => Curve.inOutCubic

/-- May the curve leave the range from 0 to 1 at times within it? -/
def overshoots : Easing → Bool
  | .inBack | .outBack | .inOutBack => true
  | _ => false

/-! ## Codes -/

/-- The place of the mode among all modes, counted from 1. -/
def code (mode : Easing) : Int :=
  all.idxOf mode + 1

/-- The mode of a code. Codes that no mode has stand for the linear one. -/
def ofCode (code : Int) : Easing :=
  if code < 1 then .linear else all.getD (code - 1).toNat .linear

theorem ofCode_code (mode : Easing) : ofCode mode.code = mode := by
  cases mode <;> rfl

/-! ## Names -/

/-- Takes `ease_` and a direction off a name. Without a direction the curve eases in and out. -/
def aliasParts? (name : List Char) : Option (List Char × List Char) := do
  let rest ← "ease_".toList.isPrefixOf? name
  match "in_".toList.isPrefixOf? rest, "out_".toList.isPrefixOf? rest with
  | some family, _ => return ("in".toList, family)
  | none, some family => return ("out".toList, family)
  | none, none => return ("in_out".toList, rest)

/-- The mode behind an author's name. Of the exponential curve there is only the one that eases
in, and its canonical name does not say so. -/
def ofAlias? (name : List Char) : Option Easing :=
  if name = "lerp".toList then some .linear
  else
    match aliasParts? name with
    | none => none
    | some (direction, family) =>
      if family = "exponential".toList then
        if direction = "in".toList then some .exponential else none
      else
        all.find? fun mode => mode.name.toList == direction ++ '_' :: family

/-- The mode that a text names. -/
def ofText? (s : String) : Option Easing :=
  let name := Text.plainName s
  (all.find? fun mode => mode.name.toList == name) <|> ofAlias? name

def parse {α : Type} (s : String) : Except (Error α) Easing :=
  match ofText? s with
  | some mode => .ok mode
  | none => .error (.unknownEasing s)

end Easing

end Inbetween
