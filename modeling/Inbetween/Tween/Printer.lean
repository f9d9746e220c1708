import Inbetween.Decimal.Layout
import Inbetween.Json.Text
import Inbetween.Tween.Plan

/-!
# Writing descriptions

The JSON trees of descriptions, chains, configurations, clocks and windows. The fields of a
description stand in the order in which it is read from an array, and those that are not given are
left out. Numbers that are not finite are written as null.
-/

namespace Inbetween

namespace Printer

def number (x : Float) : Json :=
  if x.isFinite then .number (Decimal.Layout.json.numeral x) else .null

def word (n : Nat) : Json := .number ⟨false, Decimal.digits n, [], none⟩

def string (s : String) : Json := .string (some s)

def easing (mode : Easing) : Json := string mode.name

def extend (mode : Extend) : Json := string mode.name

/-- An object of the fields that have a value. -/
def object (fields : List (String × Option Json)) : Json :=
  .object (fields.filterMap fun (key, v) => v.map fun v => (some key, v))

/-- The object of a level, with the value of its time ratio. -/
def level (s : Settings Float) (t : Option Json) : Json :=
  object
    [("start", s.start.map number), ("end", s.finish.map number), ("startt", s.opens.map number),
     ("endt", s.closes.map number), ("dt", s.lasts.map number), ("t", t),
     ("extend", s.extend.map extend), ("easing", s.easing.map easing)]

def levels : Settings Float → Timing Float → Json
  | s, .clock => level s none
  | s, .fixed ratio => level s (some (number ratio))
  | s, .tween inner timing => level s (some (levels inner timing))

end Printer

open Printer

def Spec.toJson (s : Spec Float) : Json := levels s.settings s.timing

def ChainSpec.toJson (c : ChainSpec Float) : Json := .array (c.map Spec.toJson)

def Config.toJson (cfg : Config) : Json :=
  object
    [("default_extend", some (Printer.extend cfg.extend)),
     ("default_easing", some (Printer.easing cfg.easing))]

def Clock.toJson (c : Clock Float) : Json :=
  object [("time", some (number c.time)), ("generation", some (word c.generation))]

def Window.toJson (w : Window Float) : Json :=
  object [("start", some (number w.opens)), ("end", some (number w.closes))]

end Inbetween
