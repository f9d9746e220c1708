import Inbetween.Json.Tree

/-!
# JSON text

Trees are written without blanks, in the order in which they hold their parts. In strings only
quotes, backslashes and control characters are escaped.
-/

namespace Inbetween.Json

def hexChar (n : Nat) : Char :=
  if n < 10 then Char.ofNat ('0'.toNat + n) else Char.ofNat ('a'.toNat + n - 10)

def escaped (c : Char) : List Char :=
  match c with
  | '"' => ['\\', '"']
  | '\\' => ['\\', '\\']
  | '\x08' => ['\\', 'b']
  | '\x0c' => ['\\', 'f']
  | '\n' => ['\\', 'n']
  | '\r' => ['\\', 'r']
  | '\t' => ['\\', 't']
  | c =>
    if c.toNat < 0x20 then ['\\', 'u', '0', '0', hexChar (c.toNat / 16), hexChar (c.toNat % 16)]
    else [c]

def quoted (s : String) : List Char :=
  '"' :: (s.toList.flatMap escaped ++ ['"'])

mutual

def chars : Json → List Char
  | .null => "null".toList
  | .bool true => "true".toList
  | .bool false => "false".toList
  | .number n => n.chars
  | .string content => quoted (content.getD "")
  | .array items => '[' :: (itemChars items ++ [']'])
  | .object fields => '\x7b' :: (fieldChars fields ++ ['\x7d'])
  | .fault => []

def itemChars : List Json → List Char
  | [] => []
  | [v] => v.chars
  | v :: rest => v.chars ++ ',' :: itemChars rest

def fieldChars : List (Option String × Json) → List Char
  | [] => []
  | [(key, v)] => quoted (key.getD "") ++ ':' :: v.chars
  | (key, v) :: rest => quoted (key.getD "") ++ ':' :: (v.chars ++ ',' :: fieldChars rest)

end

def text (v : Json) : String := String.ofList v.chars

end Inbetween.Json
