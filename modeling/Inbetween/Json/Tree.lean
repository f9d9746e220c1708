import Inbetween.Json.Token

/-!
# JSON trees

A JSON text is read into a tree, whether it is well formed or not. Where the text breaks off or
breaks the rules, the tree has a fault, and nothing stands behind it. So whoever walks a tree in the
order of the text meets what the text says before its first fault, and then the fault.

Objects keep all their fields in order, repeated ones too.
-/

namespace Inbetween

inductive Json where
  | null
  | bool (b : Bool)
  | number (n : Decimal.Numeral)
  /-- A string. There is no content if its escapes do not spell characters. -/
  | string (content : Option String)
  | array (items : List Json)
  | object (fields : List (Option String × Json))
  /-- Here the text stops being JSON. -/
  | fault

namespace Json

/-! ## From tokens to trees

The tree is built around the place that is being read. A frame is a container that waits for one of
its values. -/

inductive Frame where
  /-- The items before the awaited one, in reverse order. -/
  | array (items : List Json)
  /-- The fields before the awaited value, in reverse order, and the key of the value. -/
  | field (fields : List (Option String × Json)) (key : Option String)

/-- What may come next. -/
inductive Awaiting where
  | value
  /-- The first item of an array, or its end. -/
  | firstItem
  /-- A comma or the end of the array with these items, in reverse order. -/
  | afterItem (items : List Json)
  /-- The first key of an object, or its end. -/
  | firstKey
  | key (fields : List (Option String × Json))
  | colon (fields : List (Option String × Json)) (key : Option String)
  /-- A comma or the end of the object with these fields, in reverse order. -/
  | afterField (fields : List (Option String × Json))
  /-- Nothing: the text is complete. -/
  | done (v : Json)

structure Site where
  frames : List Frame
  awaiting : Awaiting

/-- A value takes the place that awaits it. -/
def supply (v : Json) : List Frame → Site
  | [] => ⟨[], .done v⟩
  | .array items :: frames => ⟨frames, .afterItem (v :: items)⟩
  | .field fields key :: frames => ⟨frames, .afterField ((key, v) :: fields)⟩

/-- The token with which a value begins. -/
def open? (frames : List Frame) : Token → Option Site
  | .null => some (supply .null frames)
  | .bool b => some (supply (.bool b) frames)
  | .number n => some (supply (.number n) frames)
  | .string content => some (supply (.string content) frames)
  | .openBracket => some ⟨frames, .firstItem⟩
  | .openBrace => some ⟨frames, .firstKey⟩
  | _ => none

/-- Goes on by one token, unless it is out of place. -/
def Site.step (s : Site) (t : Token) : Option Site :=
  match s.awaiting, t with
  | .value, t => open? s.frames t
  | .firstItem, .closeBracket => some (supply (.array []) s.frames)
  | .firstItem, t => open? (.array [] :: s.frames) t
  | .afterItem items, .comma => some ⟨.array items :: s.frames, .value⟩
  | .afterItem items, .closeBracket => some (supply (.array items.reverse) s.frames)
  | .firstKey, .closeBrace => some (supply (.object []) s.frames)
  | .firstKey, .string key => some ⟨s.frames, .colon [] key⟩
  | .key fields, .string key => some ⟨s.frames, .colon fields key⟩
  | .colon fields key, .colon => some ⟨.field fields key :: s.frames, .value⟩
  | .afterField fields, .comma => some ⟨s.frames, .key fields⟩
  | .afterField fields, .closeBrace => some (supply (.object fields.reverse) s.frames)
  | _, _ => none

/-- A text, read: its value, and whether anything but blanks follows. -/
structure Document where
  value : Json
  trailing : Bool

/-- Closes all containers around a broken value. -/
def close (v : Json) : List Frame → Json
  | [] => v
  | .array items :: frames => close (.array (v :: items).reverse) frames
  | .field fields key :: frames => close (.object ((key, v) :: fields).reverse) frames

/-- The tree of a text that ends or breaks at a place. -/
def Site.stop (s : Site) : Json :=
  match s.awaiting with
  | .value => close .fault s.frames
  | .firstItem => close (.array [.fault]) s.frames
  | .afterItem items => close (.array (.fault :: items).reverse) s.frames
  | .firstKey => close (.object [(none, .fault)]) s.frames
  | .key fields | .afterField fields => close (.object ((none, .fault) :: fields).reverse) s.frames
  | .colon fields key => close (.object ((key, .fault) :: fields).reverse) s.frames
  | .done v => v

def Site.read (s : Site) : List Token → Document
  | [] => ⟨s.stop, false⟩
  | t :: ts =>
    match s.step t with
    | some next => next.read ts
    | none =>
      match s.awaiting with
      | .done v => ⟨v, true⟩
      | _ => ⟨s.stop, false⟩

def Document.ofTokens (ts : List Token) : Document := Site.read ⟨[], .value⟩ ts

/-- Reads a text. -/
def Document.ofText (s : String) : Document := .ofTokens (tokens s.toList)

end Json

end Inbetween
