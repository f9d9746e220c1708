import Inbetween.Decimal.Numeral

/-!
# JSON tokens

The words of a JSON text, read one character at a time by a machine whose state says what token is
being read. Blanks between tokens leave no trace. A text that breaks the rules of tokens ends in a
fault; what stands before the fault has been read.

The content of a string is kept as it is spelled until the string is whole, because an escape may
name half of a character.
-/

namespace Inbetween.Json

open Decimal (Digit Numeral)

inductive Token where
  | openBrace
  | closeBrace
  | openBracket
  | closeBracket
  | comma
  | colon
  | null
  | bool (b : Bool)
  | number (n : Numeral)
  /-- A string. There is no content if its escapes do not spell characters. -/
  | string (content : Option String)
  | fault
  deriving DecidableEq, Repr

/-! ## Strings -/

/-- A piece of a string: a character, or a sixteen-bit unit named by an escape. -/
inductive Piece where
  | char (c : Char)
  | unit (n : Nat)
  deriving DecidableEq, Repr

/-- Units that name the first half of a character. -/
def isLeading (n : Nat) : Bool := 0xD800 ≤ n && n < 0xDC00

/-- Units that name the second half of a character. -/
def isTrailing (n : Nat) : Bool := 0xDC00 ≤ n && n < 0xE000

/-- The characters that pieces spell. Halves of a character have to follow each other. -/
def spell : List Piece → Option (List Char)
  | [] => some []
  | .char c :: rest => (spell rest).map (c :: ·)
  | .unit n :: .unit m :: rest =>
    if isLeading n then
      if isTrailing m then
        (spell rest).map (Char.ofNat (0x10000 + (n - 0xD800) * 0x400 + (m - 0xDC00)) :: ·)
      else none
    else if isTrailing n then none
    else (spell (.unit m :: rest)).map (Char.ofNat n :: ·)
  | .unit n :: rest =>
    if isLeading n || isTrailing n then none else (spell rest).map (Char.ofNat n :: ·)

/-- The character of a one-letter escape. -/
def simpleEscape? : Char → Option Char
  | '"' => some '"'
  | '\\' => some '\\'
  | '/' => some '/'
  | 'b' => some '\x08'
  | 'f' => some '\x0c'
  | 'n' => some '\n'
  | 'r' => some '\r'
  | 't' => some '\t'
  | _ => none

def hexDigit? (c : Char) : Option Nat :=
  if c.isDigit then some (c.toNat - '0'.toNat)
  else if 'a' ≤ c ∧ c ≤ 'f' then some (c.toNat - 'a'.toNat + 10)
  else if 'A' ≤ c ∧ c ≤ 'F' then some (c.toNat - 'A'.toNat + 10)
  else none

/-! ## The machine -/

/-- Which part of a numeral has been read last. -/
inductive Part where
  | sign
  /-- A leading zero, which no digit may follow. -/
  | zero
  | whole
  | point
  | fraction
  | mark
  | markSign
  | exponent
  deriving DecidableEq, Repr

inductive Mode where
  | between
  /-- In a word, of which the given characters are still to come. -/
  | word (rest : List Char) (token : Token)
  /-- In a string. The pieces are in reverse order. -/
  | string (pieces : List Piece)
  | escape (pieces : List Piece)
  /-- In an escape by number: the digits still to come, and the number so far. -/
  | hex (left : Nat) (unit : Nat) (pieces : List Piece)
  | number (part : Part) (n : Numeral)

/-- The tokens that a character completes, and how to go on. After a fault there is no going on. -/
structure Fed where
  tokens : List Token
  next : Option Mode

namespace Fed

def stay (mode : Mode) : Fed := ⟨[], some mode⟩

def emit (t : Token) : Fed := ⟨[t], some .between⟩

def fault : Fed := ⟨[.fault], none⟩

end Fed

def Mode.ofDigit (negative : Bool) (d : Digit) : Mode :=
  .number (if d = Digit.zero then .zero else .whole) ⟨negative, [d], [], none⟩

/-- A character between tokens. -/
def begin (c : Char) : Fed :=
  if c = ' ' ∨ c = '\n' ∨ c = '\t' ∨ c = '\r' then .stay .between
  else
    match c with
    | '\x7b' => .emit .openBrace
    | '\x7d' => .emit .closeBrace
    | '[' => .emit .openBracket
    | ']' => .emit .closeBracket
    | ',' => .emit .comma
    | ':' => .emit .colon
    | 'n' => .stay (.word ['u', 'l', 'l'] .null)
    | 't' => .stay (.word ['r', 'u', 'e'] (.bool true))
    | 'f' => .stay (.word ['a', 'l', 's', 'e'] (.bool false))
    | '"' => .stay (.string [])
    | '-' => .stay (.number .sign ⟨true, [], [], none⟩)
    | c =>
      match Digit.ofChar? c with
      | some d => .stay (.ofDigit false d)
      | none => .fault

/-- A numeral is over, and the next character stands behind it. -/
def finishNumber (n : Numeral) (c : Char) : Fed :=
  let fed := begin c
  { fed with tokens := .number n :: fed.tokens }

def appendExponent (n : Numeral) (d : Digit) : Numeral :=
  { n with exponent := n.exponent.map fun e => { e with digits := e.digits ++ [d] } }

/-- A digit in a numeral. -/
def feedDigit (d : Digit) (n : Numeral) : Part → Fed
  | .sign => .stay (.ofDigit n.negative d)
  | .zero => .fault
  | .whole => .stay (.number .whole { n with whole := n.whole ++ [d] })
  | .point | .fraction => .stay (.number .fraction { n with fraction := n.fraction ++ [d] })
  | .mark | .markSign | .exponent => .stay (.number .exponent (appendExponent n d))

/-- A character in a numeral. -/
def feedNumber (c : Char) (n : Numeral) (part : Part) : Fed :=
  match Digit.ofChar? c with
  | some d => feedDigit d n part
  | none =>
    match part with
    | .sign | .point | .markSign => .fault
    | .mark =>
      if c = '+' then .stay (.number .markSign { n with exponent := some ⟨.plus, []⟩ })
      else if c = '-' then .stay (.number .markSign { n with exponent := some ⟨.minus, []⟩ })
      else .fault
    | .zero | .whole =>
      if c = '.' then .stay (.number .point n)
      else if c = 'e' ∨ c = 'E' then
        .stay (.number .mark { n with exponent := some ⟨.unsigned, []⟩ })
      else finishNumber n c
    | .fraction =>
      if c = 'e' ∨ c = 'E' then .stay (.number .mark { n with exponent := some ⟨.unsigned, []⟩ })
      else finishNumber n c
    | .exponent => finishNumber n c

def feed (mode : Mode) (c : Char) : Fed :=
  match mode with
  | .between => begin c
  | .word [] token =>
    let fed := begin c
    { fed with tokens := token :: fed.tokens }
  | .word (d :: rest) token =>
    if c ≠ d then .fault
    else if rest.isEmpty then .emit token
    else .stay (.word rest token)
  | .string pieces =>
    if c = '"' then .emit (.string ((spell pieces.reverse).map String.ofList))
    else if c = '\\' then .stay (.escape pieces)
    else if c.toNat < 0x20 then .fault
    else .stay (.string (.char c :: pieces))
  | .escape pieces =>
    if c = 'u' then .stay (.hex 4 0 pieces)
    else
      match simpleEscape? c with
      | some d => .stay (.string (.char d :: pieces))
      | none => .fault
  | .hex left unit pieces =>
    match hexDigit? c with
    | none => .fault
    | some d =>
      let unit := 16 * unit + d
      if left ≤ 1 then .stay (.string (.unit unit :: pieces))
      else .stay (.hex (left - 1) unit pieces)
  | .number part n => feedNumber c n part

/-- The tokens that the end of the text completes. -/
def finish : Mode → List Token
  | .between => []
  | .word [] token => [token]
  | .number .zero n | .number .whole n | .number .fraction n | .number .exponent n => [.number n]
  | _ => [.fault]

def tokensFrom : Mode → List Char → List Token
  | mode, [] => finish mode
  | mode, c :: cs =>
    let fed := feed mode c
    fed.tokens ++
      match fed.next with
      | some mode => tokensFrom mode cs
      | none => []

/-- The tokens of a text, up to its first fault. -/
def tokens (cs : List Char) : List Token := tokensFrom .between cs

end Inbetween.Json
