import Inbetween.Scalar

/-!
# Easing curves

Each curve takes normalized time to eased progress. Times outside the range from 0 to 1 are not
clamped. The order of the operations is part of each formula, since rounding depends on it.
-/

namespace Inbetween.Curve

variable {α : Type} [Scalar α]

/-- The blend of two numbers: `a` at 0 and `b` at 1. -/
def lerp (a b x : α) : α := a + (b - a) * x

def linear (t : α) : α := t

/-! ## Sine and exponential -/

/-- One minus the cosine of a quarter turn, written with the sine so that both ends are exact. -/
def inSine (t : α) : α := 1.0 - Scalar.sin ((1.0 - t) * (Scalar.pi / 2.0))

def outSine (t : α) : α := Scalar.sin (t * (Scalar.pi / 2.0))

def inOutSine (t : α) : α := -(Scalar.cos (t * Scalar.pi)) * 0.5 + 0.5

/-- Both exponentials are taken by the same function, so the curve ends at exactly 1. -/
def exponential (t : α) : α := (Scalar.exp t - 1.0) / (Scalar.exp 1.0 - 1.0)

/-! ## Powers -/

def cube (t : α) : α := t * t * t

def inQuad (t : α) : α := t * t

def outQuad (t : α) : α := -t * t + 2.0 * t

def inOutQuad (t : α) : α :=
  if t < 0.5 then t * t * 2.0 else -2.0 * t * t + 4.0 * t - 1.0

def inCubic (t : α) : α := cube t

def outCubic (t : α) : α := cube (t - 1.0) + 1.0

def inOutCubic (t : α) : α :=
  let u := t * 2.0
  if u < 1.0 then 0.5 * cube u else 0.5 * cube (u - 2.0) + 1.0

/-! ## Circles -/

def inCirc (t : α) : α := 1.0 - Scalar.sqrt (1.0 - t * t)

def outCirc (t : α) : α :=
  let u := t - 1.0
  Scalar.sqrt (1.0 - u * u)

def inOutCirc (t : α) : α :=
  let u := t * 2.0
  if u < 1.0 then 0.5 * (1.0 - Scalar.sqrt (1.0 - u * u))
  else
    let v := u - 2.0
    0.5 * (Scalar.sqrt (1.0 - v * v) + 1.0)

/-! ## Overshooting curves

The curves of this family leave the range from 0 to 1 by an amount that grows with the overshoot
`s`. -/

/-- The overshoot of the one-sided curves. -/
def overshoot : α := 1.70158

/-- The overshoot of the two-sided curve. -/
def wideOvershoot : α := overshoot * 1.525

def inBack (t : α) : α :=
  let s : α := overshoot
  t * t * ((s + 1.0) * t - s)

def outBack (t : α) : α :=
  let s : α := overshoot
  let u := t - 1.0
  u * u * ((s + 1.0) * u + s) + 1.0

def inOutBack (t : α) : α :=
  let s : α := wideOvershoot
  let u := t * 2.0
  if u < 1.0 then 0.5 * (u * u * ((s + 1.0) * u - s))
  else
    let v := u - 2.0
    0.5 * (v * v * ((s + 1.0) * v + s) + 2.0)

/-! ## Bounces -/

def bounceGain : α := 7.5625

def bounceSpan : α := 2.75

/-- Four parabolic hops, each lifted to land on the next. -/
def outBounce (t : α) : α :=
  if t < 1.0 / bounceSpan then bounceGain * t * t
  else if t < 2.0 / bounceSpan then
    let u := t - 1.5 / bounceSpan
    bounceGain * u * u + 0.75
  else if t < 2.5 / bounceSpan then
    let u := t - 2.25 / bounceSpan
    bounceGain * u * u + 0.9375
  else
    let u := t - 2.625 / bounceSpan
    bounceGain * u * u + 0.984375

def inBounce (t : α) : α := 1.0 - outBounce (1.0 - t)

def inOutBounce (t : α) : α :=
  if t < 0.5 then 0.5 - outBounce (1.0 - t * 2.0) * 0.5
  else outBounce (t * 2.0 - 1.0) * 0.5 + 0.5

end Inbetween.Curve
