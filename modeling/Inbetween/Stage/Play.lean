import Inbetween.Binary64.Scalar
import Inbetween.Stage.Board
import Inbetween.Tween.Reader
import Inbetween.World.Evaluate

/-!
# Playing scripts

Each step of a script is a routine that calls the library, and so is each scripted source and hook.
The stage is the host that these routines make up. Steps are played one after another; each one
comes with the happenings and the log lines that it caused.
-/

namespace Inbetween.Stage

open Routine (ask)

abbrev Play (β : Type) := Routine Float vocabulary Board β

/-! ## The board -/

def board : Play Board := ask .recall

def onBoard (f : Board → Board) : Play Unit := do
  ask (.remember (f (← board)))

def report (h : Happening) : Play Unit :=
  onBoard fun b => { b with happenings := b.happenings.push h }

def bindCell (id : String) (v : Float) : Play Unit :=
  onBoard fun b =>
    { b with cells := b.cells.push v, cellNames := b.cellNames.bind id b.cells.size }

def bindSlot (id : String) (s : Slot Float vocabulary) : Play Unit :=
  onBoard fun b => { b with slotNames := b.slotNames.bind id s }

def bindAnimation (id : String) (a : AnimationId) : Play Unit :=
  onBoard fun b => { b with animationNames := b.animationNames.bind id a }

def withAnimation (id : String) (k : AnimationId → Play Reply) : Play Reply := do
  match (← board).animationNames.find? id with
  | some a => k a
  | none => return .unbound

def withSlot (id : String) (k : Slot Float vocabulary → Play Reply) : Play Reply := do
  match (← board).slotNames.find? id with
  | some s => k s
  | none => return .unbound

/-- The clock at a time of its own, or else the clock of the stage. -/
def now : Option Float → Play (Clock Float)
  | some time => return .startingAt time
  | none => return (← board).clock

/-! ## Slots -/

/-- The slot in a part of an interpolation. A time that follows the clock has none. -/
def partOf? (i : Interpolation Float vocabulary) : Part → Option (Slot Float vocabulary)
  | .start => some i.start
  | .finish => some i.finish
  | .time =>
    match i.time with
    | .slot s => some s
    | .pace _ => none

def findPart (id : String) (part : Part) : Play (Option (AnimationId × Slot Float vocabulary)) := do
  match (← board).animationNames.find? id with
  | none => return none
  | some a =>
    match ((← ask .scene).animation a).interpolation? with
    | none => return none
    | some i => return (partOf? i part).map (a, ·)

/-- Does something with the slot in a part of an interpolation while its configuration is held. -/
def withPart (id : String) (part : Part) (k : Slot Float vocabulary → Play Reply) : Play Reply := do
  match ← findPart id part with
  | some (a, s) => Routine.holding a (k s)
  | none => return .unbound

/-- Makes a slot, unless a name in it is not bound. -/
def makeSlot : SlotDef → Play (Option (Slot Float vocabulary))
  | .constant v => return some (.constant v)
  | .animation id => do
    match (← board).animationNames.find? id with
    | some a => return some (.link (← ask (.addLink a)))
    | none => return none
  | .cell id => do
    return ((← board).cellNames.find? id).map fun c => .external (Source.cell c)
  | .counter id => do
    return ((← board).cellNames.find? id).map fun c => .external (Source.counter c)
  | .slot id => do
    match (← board).slotNames.find? id with
    | some s => return some (← ask (.cloneSlot s))
    | none => return none
  | .part id part => do
    match ← findPart id part with
    | some (_, s) => return some (← ask (.cloneSlot s))
    | none => return none
  | .script v steps => return some (.external (Source.script v steps))

def withMade (s : SlotDef) (k : Slot Float vocabulary → Play Reply) : Play Reply := do
  match ← makeSlot s with
  | some slot => k slot
  | none => return .unbound

def withTime (t : TimeDef) (k : TimeSource Float vocabulary → Play Reply) : Play Reply :=
  match t with
  | .slot s => withMade s fun slot => k (.slot slot)
  | .pace opens duration => k (.pace (.ofDuration opens duration))
  | .window opens closes =>
    match Window.make opens closes with
    | .ok w => k (.pace w.pace)
    | .error e => return .failed e

/-- The mode of a name, or the default when there is no name. -/
def withMode {β : Type} [Inhabited β] (parse : String → Except (Error Float) β)
    (name : Option String) (k : β → Play Reply) : Play Reply :=
  match name with
  | none => k default
  | some s =>
    match parse s with
    | .ok mode => k mode
    | .error e => return .failed e

/-! ## Views -/

def slotInfo : Slot Float vocabulary → Play SlotInfo
  | .constant v => return .constant v
  | .external _ => return .external
  | .link l => do
    let link := (← ask .scene).link l
    return .link ((← board).animationNames.nameOf? (· == link.target)) link.busy link.pin

def timeInfo : TimeSource Float vocabulary → Play TimeInfo
  | .slot s => return .slot (← slotInfo s)
  | .pace p => return .pace p

/-- The text that shows an animation. -/
def describe (a : Animation Float vocabulary) : String :=
  let strategy := if a.interpolation?.isSome then "interpolate" else "custom"
  let hook := if a.hook.isSome then "true" else "false"
  "Animation \x7b strategy: \"" ++ strategy ++ "\", on_end: " ++ hook ++ " \x7d"

def display (a : AnimationId) : Play Reply := do
  return .animation (describe ((← ask .scene).animation a))

def info (a : AnimationId) : Play Reply := do
  let anim := (← ask .scene).animation a
  match anim.interpolation? with
  | none => return .info (describe anim) none
  | some i =>
    let start ← slotInfo i.start
    let finish ← slotInfo i.finish
    let time ← timeInfo i.time
    return .info (describe anim) (some ⟨start, finish, time, i.easing, i.extend⟩)

/-- Adds an animation, names it and shows it. -/
def introduce (id : String) (strategy : Strategy Float vocabulary) : Play Reply := do
  let a ← ask (.add strategy)
  bindAnimation id a
  display a

/-- Names and shows an animation that was built. -/
def introduceBuilt (id : String) : Except (Error Float) AnimationId → Play Reply
  | .error e => return .failed e
  | .ok a => do
    bindAnimation id a
    display a

def readConfig (text : Option String) : Except ReadError Config :=
  match text with
  | none => .ok {}
  | some s => Config.read s

/-! ## Changes -/

/-- Does something with an interpolation. Other animations are refused before anything else is
looked at. -/
def withInterpolation (id : String) (k : AnimationId → Play Reply) : Play Reply :=
  withAnimation id fun a => do
    if ((← ask .scene).animation a).interpolation?.isSome then k a else return .notInterpolation

def reconfigure (a : AnimationId) (change : Change Float vocabulary) : Play Reply := do
  match ← ask (.reconfigure a change) with
  | .done => return .ok
  | .busy => return .failed .busy
  | .notInterpolation => return .notInterpolation

def settle (s : Slot Float vocabulary) (v : Option Float) : Play Reply :=
  match s with
  | .link l => do
    ask (.setPin l v)
    return .ok
  | _ => return .notAnimationSlot

def setClock (f : Clock Float → Clock Float) : Play Reply := do
  onBoard fun b => { b with clock := f b.clock }
  return .clock (← board).clock

/-! ## Steps -/

/-- The word for an action in reports. -/
def verb : Action → String
  | .setTime _ => "set_time"
  | .advance _ => "advance"
  | .invalidate => "invalidate"
  | .clock => "clock"
  | .cell _ _ => "cell"
  | .cellSet _ _ => "cell_set"
  | .cellGet _ => "cell_get"
  | .slot _ _ => "slot"
  | .slotRead _ => "slot_read"
  | .slotInfo _ => "slot_info"
  | .slotSettle _ _ => "slot_settle"
  | .slotUnsettle _ => "slot_unsettle"
  | .partRead _ _ => "field_read"
  | .partInfo _ _ => "field_info"
  | .partSettle _ _ _ => "field_settle"
  | .interpolate _ _ _ _ _ _ => "interp"
  | .bezier _ _ _ _ _ => "bezier"
  | .wrap _ _ _ _ => "wrap"
  | .rate _ _ => "rate"
  | .chain _ _ => "chain"
  | .endsAt _ _ => "ends_at"
  | .affine _ _ _ => "affine"
  | .spec _ _ _ _ => "spec"
  | .chainSpec _ _ _ _ => "chain_spec"
  | .setStart _ _ => "set_start"
  | .setFinish _ _ => "set_end"
  | .setTimeSlot _ _ => "set_time_slot"
  | .setPace _ _ _ => "set_global_window"
  | .setEasing _ _ => "set_easing"
  | .setExtend _ _ => "set_extend"
  | .onEnd _ _ => "on_end"
  | .held _ _ => "held"
  | .evaluate _ => "eval"
  | .sample _ => "sample"
  | .evaluateIn _ _ => "eval_in"
  | .info _ => "info"

def Step.verb : Step → String
  | .make _ action => Stage.verb action

mutual

def act (clock : Clock Float) : Action → Play Reply
  | .setTime time => setClock (·.setTime time)
  | .advance span => setClock (·.advance span)
  | .invalidate => setClock (·.invalidate)
  | .clock => return .clock (← board).clock
  | .cell id v => do
    bindCell id v
    return .ok
  | .cellSet id v => do
    match (← board).cellNames.find? id with
    | none => return .unbound
    | some c => do
      onBoard fun b => { b with cells := b.cells.setIfInBounds c v }
      return .ok
  | .cellGet id => do
    let b ← board
    match b.cellNames.find? id with
    | none => return .unbound
    | some c => return .number (b.cells.getD c 0.0)
  | .slot id s => withMade s fun slot => do
    bindSlot id slot
    return .flag (match slot with | .link _ => true | _ => false)
  | .slotRead id => withSlot id fun s => return .number (← ask (.read s clock))
  | .slotInfo id => withSlot id fun s => return .slot (← slotInfo s)
  | .slotSettle id v => withSlot id fun s => settle s v
  | .slotUnsettle id => withSlot id fun s => settle s none
  | .partRead id part => withPart id part fun s => return .number (← ask (.read s clock))
  | .partInfo id part => withPart id part fun s => return .slot (← slotInfo s)
  | .partSettle id part v => withPart id part fun s => settle s v
  | .interpolate id start finish time easing extend =>
    withMade start fun start => withMade finish fun finish => withTime time fun time =>
      withMode Easing.parse easing fun easing => withMode Extend.parse extend fun extend =>
        introduce id (.interpolate { start, finish, time, easing, extend })
  | .bezier id points time extend ratios =>
    withTime time fun time => withMode Extend.parse extend fun extend => do
      let _ ← introduce id (.bezier points time extend)
      return .numbers (ratios.map points.point)
  | .wrap id low high source =>
    withMade low fun low => withMade high fun high => withMade source fun source =>
      introduce id (.wrap low high source)
  | .rate id source => withMade source fun source => do
    let a ← Routine.addRate source clock
    let seen ← slotInfo source
    bindAnimation id a
    return .slot seen
  | .chain id segments => do
    let names := (← board).animationNames
    match segments.mapM names.find? with
    | none => return .unbound
    | some segments =>
      let _ ← introduce id (.chain segments)
      return .count segments.length
  | .endsAt id v => introduce id (.custom (Custom.endsAt v))
  | .affine id a b => introduce id (.custom (Custom.affine a b))
  | .spec id text config current =>
    match Spec.parse text, readConfig config with
    | .error e, _ => return .failed e
    | .ok _, .error e => return .unreadable e
    | .ok spec, .ok config => do
      introduceBuilt id (← ask (.build spec config clock current))
  | .chainSpec id text config current =>
    match ChainSpec.read text, readConfig config with
    | .error e, _ => return .unreadable e
    | .ok _, .error e => return .unreadable e
    | .ok spec, .ok config => do
      introduceBuilt id (← ask (.buildChain spec config clock current))
  | .setStart id s => withInterpolation id fun a =>
    withMade s fun s => reconfigure a (.start s)
  | .setFinish id s => withInterpolation id fun a =>
    withMade s fun s => reconfigure a (.finish s)
  | .setTimeSlot id s => withInterpolation id fun a =>
    withMade s fun s => reconfigure a (.time (.slot s))
  | .setPace id opens duration => withInterpolation id fun a =>
    reconfigure a (.time (.pace (.ofDuration opens duration)))
  | .setEasing id mode => withInterpolation id fun a =>
    withMode Easing.parse mode fun mode => reconfigure a (.easing mode)
  | .setExtend id mode => withInterpolation id fun a =>
    withMode Extend.parse mode fun mode => reconfigure a (.extend mode)
  | .onEnd id hook => withAnimation id fun a => do
    ask (.setHook a (hook.map fun hook => Hook.mk id hook))
    return .flag ((← ask .scene).animation a).hook.isSome
  | .held id step => do
    match (← board).animationNames.find? id with
    | none => return .unbound
    | some a => Routine.holding a (play step)
  | .evaluate id => withAnimation id fun a => return .number (← Routine.evaluate a clock)
  | .sample id => withAnimation id fun a => return .sample (← ask (.sample a clock))
  | .evaluateIn id slot => withAnimation id fun a => withSlot slot fun
    | .link l => do return .number (← ask (.evaluateIn a l clock))
    | _ => return .notAnimationSlot
  | .info id => withAnimation id info

/-- Plays a step at its time. -/
def play : Step → Play Reply
  | .make time action => do act (← now time) action

end

/-- Plays a step and reports it. -/
def playReported (s : Step) : Play Unit := do
  let reply ← play s
  report (.played s.verb reply)

/-! ## The host -/

def source : Source → Play Float
  | .cell c => return (← board).cells.getD c 0.0
  | .counter c => do
    let v := (← board).cells.getD c 0.0
    onBoard fun b => { b with cells := b.cells.setIfInBounds c (v + 1.0) }
    return v
  | .script v steps => do
    steps.forM playReported
    return v

def deed (l : LinkId) (finish : Float) : Deed → Play Unit
  | .settleFinish => ask (.setPin l (some finish))
  | .settle v => ask (.setPin l (some v))
  | .unsettle => ask (.setPin l none)
  | .step s => playReported s

/-- Is the slot this very link? -/
def isLink (l : LinkId) : Slot Float vocabulary → Bool
  | .link m => l == m
  | _ => false

def hook (h : Hook) (l : LinkId) (finish : Float) : Play Float := do
  let link := (← ask .scene).link l
  let slot := (← board).slotNames.nameOf? (isLink l)
  report (.hook h.owner slot finish link.busy link.pin)
  match h.hook with
  | .make returns deeds =>
    deeds.forM (deed l finish)
    return returns.apply finish

def custom : Custom → Clock Float → Sample Float
  | .endsAt v, clock => if clock.time > v then .ended v else .value clock.time
  | .affine a b, clock => .value (a * clock.time + b)

def host : Host Float vocabulary Board := ⟨source, hook, custom⟩

/-! ## Scripts -/

/-- How deep the calls of a stage may be nested. -/
def depth : Nat := 10000

/-- What became of a step. -/
structure Outcome where
  reply : Reply
  happenings : List Happening
  log : List LogLine

abbrev State := World Float vocabulary Board

/-- Plays a step of the script, with a fresh journal. -/
def perform (w : State) (s : Step) : Outcome × State :=
  match host.run depth (play s) w with
  | none => (⟨.unfinished, [], []⟩, w)
  | some (reply, w) =>
    let log := w.journal.toList.filterMap Event.line?
    (⟨reply, w.memory.happenings.toList, log⟩,
      { w with journal := #[], memory := { w.memory with happenings := #[] } })

def performAll (w : State) : List Step → List Outcome
  | [] => []
  | s :: rest =>
    let (outcome, w) := perform w s
    outcome :: performAll w rest

def Opening.clock : Opening → Except ReadError (Clock Float)
  | .new => .ok .new
  | .startingAt time => .ok (.startingAt time)
  | .text s => Clock.read s

/-- The outcomes of all steps, unless the clock cannot be read. -/
def Script.run (s : Script) : Except ReadError (List Outcome) :=
  s.opening.clock.map fun clock => performAll { memory := { clock } } s.steps

end Inbetween.Stage
