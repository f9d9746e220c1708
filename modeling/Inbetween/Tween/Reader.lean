import Inbetween.Json.Check
import Inbetween.Tween.Plan

/-!
# Reading descriptions

Descriptions, chains, configurations, clocks and windows as they stand in JSON trees. A record is
an object of its fields, or an array of them in their order. In an object, unknown fields are
skipped and a known one may be given once. Of several errors the one that comes first in the text
is reported.
-/

namespace Inbetween

open Json (Document)

namespace Reader

/-- What reading gives. -/
abbrev Result (β : Type) := Except ReadError β

/-! ## Plain values -/

def number : Json → Result Float
  | .number n =>
    match n.toFloat? with
    | some x => .ok x
    | none => .error .malformed
  | _ => .error .malformed

def word : Json → Result Nat
  | .number n =>
    match n.toWord? with
    | some k => .ok k
    | none => .error .malformed
  | _ => .error .malformed

def easing : Json → Result Easing
  | .string (some s) =>
    match Easing.ofText? s with
    | some mode => .ok mode
    | none => .error (.unknownEasing s)
  | _ => .error .malformed

def extend : Json → Result Extend
  | .string (some s) =>
    match Extend.ofText? s with
    | some mode => .ok mode
    | none => .error (.unknownExtend s)
  | _ => .error .malformed

/-- A value that may be left out by writing null. -/
def optional {β : Type} (read : Json → Result β) : Json → Result (Option β)
  | .null => .ok none
  | v => (read v).map some

/-! ## Descriptions -/

inductive Field where
  | start
  | finish
  | opens
  | closes
  | lasts
  | timing
  | extend
  | easing
  deriving DecidableEq, Repr

namespace Field

/-- All fields in the order in which an array gives them. -/
def all : List Field := [.start, .finish, .opens, .closes, .lasts, .timing, .extend, .easing]

def name : Field → String
  | .start => "start"
  | .finish => "end"
  | .opens => "startt"
  | .closes => "endt"
  | .lasts => "dt"
  | .timing => "t"
  | .extend => "extend"
  | .easing => "easing"

/-- The field of a key. The easing has a second one. -/
def ofKey? (key : String) : Option Field :=
  if key = "method" then some .easing else all.find? fun f => f.name == key

end Field

/-- The time ratio, from a value and what the value is when read as a description. A value that
can be kept is a number or a description, and else all its errors are one. -/
def timing (depth : Nat) (v : Json) (inner : Result (Spec Float)) : Result (Timing Float) :=
  match v with
  | .null => .ok .clock
  | v =>
    if v.isReadable depth then
      match number v, inner with
      | .ok x, _ => .ok (.fixed x)
      | _, .ok s => .ok (.tween s.settings s.timing)
      | _, _ => .error .noTiming
    else .error .malformed

/-- Reads the value of a field into a description. -/
def setField (depth : Nat) (s : Spec Float) (f : Field) (v : Json) (inner : Result (Spec Float)) :
    Result (Spec Float) :=
  match f with
  | .start => do return { s with settings.start := ← optional number v }
  | .finish => do return { s with settings.finish := ← optional number v }
  | .opens => do return { s with settings.opens := ← optional number v }
  | .closes => do return { s with settings.closes := ← optional number v }
  | .lasts => do return { s with settings.lasts := ← optional number v }
  | .timing => do return { s with timing := ← timing depth v inner }
  | .extend => do return { s with settings.extend := ← optional extend v }
  | .easing => do return { s with settings.easing := ← optional easing v }

mutual

/-- Reads a description inside `depth` containers. -/
def spec (depth : Nat) : Json → Result (Spec Float)
  | .object fields =>
    if depth < Json.depthLimit then specFields (depth + 1) [] {} fields else .error .malformed
  | .array items =>
    if depth < Json.depthLimit then specItems (depth + 1) Field.all {} items else .error .malformed
  | _ => .error .malformed

/-- Reads the fields of an object, after those that were given before. -/
def specFields (depth : Nat) (given : List Field) (s : Spec Float) :
    List (Option String × Json) → Result (Spec Float)
  | [] => .ok s
  | (none, _) :: _ => .error .malformed
  | (some key, v) :: rest =>
    match Field.ofKey? key with
    | none =>
      if v.isWhole then specFields depth given s rest else .error .malformed
    | some f =>
      if f ∈ given then .error (.duplicateField f.name)
      else do
        let s ← setField depth s f v (spec depth v)
        specFields depth (f :: given) s rest

/-- Reads the items of an array, which are the given fields. The last ones may be missing. -/
def specItems (depth : Nat) (fields : List Field) (s : Spec Float) :
    List Json → Result (Spec Float)
  | [] => .ok s
  | v :: rest =>
    match fields with
    | [] => .error .malformed
    | f :: fields => do
      let s ← setField depth s f v (spec depth v)
      specItems depth fields s rest

end

/-- Reads an array of values, each by the same rule, inside `depth` containers. -/
def list {β : Type} (read : (depth : Nat) → Json → Result β) (depth : Nat) :
    Json → Result (List β)
  | .array items => items.mapM (read (depth + 1))
  | _ => .error .malformed

/-! ## Records of two fields -/

/-- Reads the fields of an object with two known keys, after what was read before. -/
def pairFields {β γ : Type} (first second : String) (f : Json → Result β) (g : Json → Result γ) :
    Option β × Option γ → List (Option String × Json) → Result (Option β × Option γ)
  | given, [] => .ok given
  | _, (none, _) :: _ => .error .malformed
  | (b, c), (some key, v) :: rest =>
    if key = first then
      if b.isSome then .error (.duplicateField first)
      else do
        let x ← f v
        pairFields first second f g (some x, c) rest
    else if key = second then
      if c.isSome then .error (.duplicateField second)
      else do
        let y ← g v
        pairFields first second f g (b, some y) rest
    else if v.isWhole then pairFields first second f g (b, c) rest
    else .error .malformed

/-- Reads the items of an array of two values. The last ones may be missing. -/
def pairItems {β γ : Type} (f : Json → Result β) (g : Json → Result γ) :
    List Json → Result (Option β × Option γ)
  | [] => .ok (none, none)
  | [v] => do return (some (← f v), none)
  | v :: w :: rest => do
    let b ← f v
    let c ← g w
    if rest.isEmpty then return (some b, some c) else .error .malformed

/-- A record of two fields, either of which may be missing. -/
def pair {β γ : Type} (first second : String) (f : Json → Result β) (g : Json → Result γ) :
    Json → Result (Option β × Option γ)
  | .object fields => pairFields first second f g (none, none) fields
  | .array items => pairItems f g items
  | _ => .error .malformed

/-- A record of two fields, both of which are required. Only an object says which one is missing. -/
def fullPair {β γ : Type} (first second : String) (f : Json → Result β) (g : Json → Result γ)
    (v : Json) : Result (β × γ) := do
  match ← pair first second f g v, v with
  | (some b, some c), _ => .ok (b, c)
  | (none, _), .object _ => .error (.missingField first)
  | (some _, none), .object _ => .error (.missingField second)
  | _, _ => .error .malformed

def config (v : Json) : Result Config := do
  let (mode, curve) ← pair "default_extend" "default_easing" extend easing v
  return { extend := mode.getD .constant, easing := curve.getD .linear }

def clock (v : Json) : Result (Clock Float) := do
  let (time, generation) ← fullPair "time" "generation" number word v
  return ⟨time, generation⟩

/-- The bounds of a window are read as they stand. -/
def window (v : Json) : Result (Window Float) := do
  let (opens, closes) ← fullPair "start" "end" number number v
  return ⟨opens, closes⟩

/-! ## Texts -/

/-- Reads a text that holds one value and nothing else. -/
def document {β : Type} (read : Json → Result β) (text : String) : Result β := do
  let d := Document.ofText text
  let b ← read d.value
  if d.trailing then .error .malformed else .ok b

end Reader

open Reader

def Spec.read (text : String) : Except ReadError (Spec Float) := document (spec 0) text

/-- Reads a description, as hosts do that report all errors alike. -/
def Spec.parse (text : String) : Except (Error Float) (Spec Float) :=
  (Spec.read text).mapError .unreadable

def ChainSpec.read (text : String) : Except ReadError (ChainSpec Float) :=
  document (list spec 0) text

/-- Reads a row of descriptions for each segment. -/
def ChainSpec.readRows (text : String) : Except ReadError (List (List (Spec Float))) :=
  document (list (list spec) 0) text

def Config.read (text : String) : Except ReadError Config := document config text

def Clock.read (text : String) : Except ReadError (Clock Float) := document clock text

def Window.read (text : String) : Except ReadError (Window Float) := document window text

def Easing.read (text : String) : Except ReadError Easing := document easing text

def Extend.read (text : String) : Except ReadError Extend := document extend text

end Inbetween
