import Inbetween.Decimal.Numeral
import Inbetween.Decimal.Shortest

/-!
# Layouts of decimal text

All texts show the shortest decimal that reads back. They differ in where the positional form ends,
whether a whole number keeps a point, and how an exponent is signed; a layout records these
decisions. Three are in use: in messages, in the hand-off lines of chains, and in JSON.
-/

namespace Inbetween.Decimal

structure Layout where
  /-- The least and the greatest power of ten of the leading digit that is written without an
  exponent. All are when there is no range. -/
  positional : Option (Int × Int)
  /-- Does a whole number end in `.0` in the positional form? -/
  keepsPoint : Bool
  /-- Is a positive exponent signed? -/
  signsExponent : Bool
  tie : Tie

namespace Layout

/-- Messages never use an exponent and drop an empty fraction. -/
def message : Layout := ⟨none, false, false, .up⟩

/-- Hand-off lines keep the point of whole numbers, and leave the positional form below one
ten-thousandth and from ten to the sixteenth on. -/
def detail : Layout := ⟨some (-4, 15), true, false, .up⟩

/-- JSON keeps the point of whole numbers, leaves the positional form one place later than hand-off
lines for small numbers, and signs every exponent. -/
def json : Layout := ⟨some (-5, 15), true, true, .even⟩

/-- Digits with the point placed `scale` places from their end. -/
def place (l : Layout) (negative : Bool) (ds : List Digit) (scale : Int) : Numeral :=
  if 0 ≤ scale then
    ⟨negative, ds ++ List.replicate scale.toNat Digit.zero,
      if l.keepsPoint then [Digit.zero] else [], none⟩
  else
    let behind := (-scale).toNat
    if behind < ds.length then
      ⟨negative, ds.take (ds.length - behind), ds.drop (ds.length - behind), none⟩
    else
      ⟨negative, [Digit.zero], List.replicate (behind - ds.length) Digit.zero ++ ds, none⟩

/-- Digits with the point behind the first one, and the power of ten of the first one. -/
def scientific (l : Layout) (negative : Bool) (ds : List Digit) (power : Int) : Numeral :=
  let sign := if power < 0 then .minus else if l.signsExponent then .plus else .unsigned
  ⟨negative, ds.take 1, ds.drop 1, some ⟨sign, digits power.natAbs⟩⟩

/-- The numeral of a finite number. -/
def numeral (l : Layout) (x : Float) : Numeral :=
  let d := shortest l.tie x
  let ds := digits d.coefficient
  let power := d.scale + ds.length - 1
  let positional :=
    match l.positional with
    | none => true
    | some (least, greatest) => least ≤ power && power ≤ greatest
  if positional then l.place (Binary64.isNegative x) ds d.scale
  else l.scientific (Binary64.isNegative x) ds power

/-- The text of any number. -/
def text (l : Layout) (x : Float) : String :=
  if x.isNaN then "NaN"
  else if x.isInf then (if Binary64.isNegative x then "-inf" else "inf")
  else (l.numeral x).text

end Layout

end Inbetween.Decimal
