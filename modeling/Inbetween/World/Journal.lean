import Inbetween.Tween.Plan
import Inbetween.World.Scene

/-!
# The journal

Everything that happens in a world, in the order in which it happens: when reads and samples begin
and finish, which host code runs, what is changed, and what building settles. Guards, borrows, pins
and hooks can be told from the journal alone. The log is the part of it that is put into words.
-/

namespace Inbetween

inductive Event (α : Type) (V : Vocabulary) where
  | sourceRead (source : V.Source)
  /-- A read of a link that is neither pinned nor guarded. -/
  | readBegan (l : LinkId)
  | readFinished (l : LinkId) (v : α)
  /-- A link was read while its guard was up, and reported zero. -/
  | cycleMet (l : LinkId)
  /-- An animation is sampled, on its own or for an evaluation through a link. -/
  | sampleBegan (a : AnimationId) (through : Option LinkId)
  | sampleFinished (a : AnimationId) (through : Option LinkId) (s : Sample α)
  | hookRun (hook : V.Hook) (l : LinkId) (finish : α)
  | held (a : AnimationId)
  | released (a : AnimationId)
  | reconfigured (a : AnimationId) (change : Change α V)
  | hookSet (a : AnimationId) (hook : Option V.Hook)
  | pinSet (l : LinkId) (pin : Option α)
  /-- New animations, whose names follow each other. -/
  | added (first : AnimationId) (strategies : List (Strategy α V))
  | noted (note : Note α)

/-! ## The log -/

inductive Severity where
  | debug
  | warning
  deriving DecidableEq, Repr

structure LogLine where
  severity : Severity
  text : String
  deriving DecidableEq, Repr

open Decimal in
def Note.text : Note Float → String
  | .windowResolved opens closes =>
    let opensText := Layout.message.text opens
    let closesText := Layout.message.text closes
    s!"resolved tween window [{opensText}, {closesText}]"
  | .handedOff segment finish closes =>
    let finishText := Layout.message.text finish
    let closesText :=
      match closes with
      | some c => "Some(" ++ Layout.detail.text c ++ ")"
      | none => "None"
    s!"chain segment {segment} hands off end {finishText} at {closesText}"

/-- The log line of an event, if it has one. -/
def Event.line? {V : Vocabulary} : Event Float V → Option LogLine
  | .noted note => some ⟨.debug, note.text⟩
  | .cycleMet _ => some ⟨.warning, "circular animation reference detected; reading 0.0"⟩
  | .hookRun _ _ finish =>
    some ⟨.debug, "animation past end; running on-end hook with " ++
      Decimal.Layout.message.text finish⟩
  | _ => none

end Inbetween
