/-!
# Decimal numerals

A numeral is the written form of a number: a sign, the digits before and after the point, and an
optional power of ten. It keeps what the text says (`1e+16` and `1e16` differ), not what it is
worth, so that writing a numeral and reading it back are inverse to each other.
-/

namespace Inbetween.Decimal

abbrev Digit := Fin 10

def Digit.zero : Digit := ⟨0, by decide⟩

def Digit.char (d : Digit) : Char :=
  Char.ofNat ('0'.toNat + d.val)

def Digit.ofChar? (c : Char) : Option Digit :=
  if c.isDigit then some (Fin.ofNat 10 (c.toNat - '0'.toNat)) else none

/-- The decimal digits of a natural number, the first one leading. Zero has one digit. -/
def digits (n : Nat) : List Digit :=
  if n < 10 then [Fin.ofNat 10 n] else digits (n / 10) ++ [Fin.ofNat 10 n]

/-- The natural number that a row of digits denotes. -/
def value (ds : List Digit) : Nat :=
  ds.foldl (fun n d => 10 * n + d.val) 0

inductive Sign where
  | unsigned
  | plus
  | minus
  deriving DecidableEq, Repr

def Sign.chars : Sign → List Char
  | .unsigned => []
  | .plus => ['+']
  | .minus => ['-']

/-- A power of ten behind the letter `e`. -/
structure Exponent where
  sign : Sign
  digits : List Digit
  deriving DecidableEq, Repr

/-- The exponent as a number. -/
def Exponent.toInt (e : Exponent) : Int :=
  match e.sign with
  | .minus => -(value e.digits : Int)
  | _ => value e.digits

structure Numeral where
  negative : Bool
  whole : List Digit
  /-- The digits behind the point. There is no point when there are none. -/
  fraction : List Digit
  exponent : Option Exponent
  deriving DecidableEq, Repr

namespace Numeral

def chars (n : Numeral) : List Char :=
  (if n.negative then ['-'] else []) ++ n.whole.map Digit.char ++
    (if n.fraction.isEmpty then [] else '.' :: n.fraction.map Digit.char) ++
    match n.exponent with
    | none => []
    | some e => 'e' :: (e.sign.chars ++ e.digits.map Digit.char)

def text (n : Numeral) : String :=
  String.ofList n.chars

end Numeral

end Inbetween.Decimal
