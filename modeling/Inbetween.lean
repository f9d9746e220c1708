import Inbetween.Stage.Play
import Inbetween.Tween.Printer
import Inbetween.World.Rehearsal
import Inbetween.Proofs.Runs
import Inbetween.Proofs.Configurations
import Inbetween.Proofs.Following
import Inbetween.Proofs.Hooks
import Inbetween.Proofs.Interpretation
import Inbetween.Proofs.Playback
import Inbetween.Proofs.Acceptance
import Inbetween.Proofs.Numerals
import Inbetween.Proofs.Pins
import Inbetween.Proofs.Entries
import Inbetween.Proofs.Respelling
import Inbetween.Proofs.Separation
import Inbetween.Proofs.Settling
import Inbetween.Proofs.Renderings
import Inbetween.Proofs.Standstill
import Inbetween.Proofs.Scales
import Inbetween.Proofs.Refusals
import Inbetween.Proofs.Explicit
import Inbetween.Proofs.Progress
import Inbetween.Proofs.Annotations
import Inbetween.Proofs.Nesting
import Inbetween.Proofs.Reals
import Inbetween.Proofs.Cycles
import Inbetween.Proofs.Symmetries
import Inbetween.Proofs.Ranges
import Inbetween.Proofs.Chords
import Inbetween.Proofs.Components
import Inbetween.Proofs.Naming
import Inbetween.Proofs.Rates
import Inbetween.Proofs.Blends
import Inbetween.Proofs.Wraps
import Inbetween.Proofs.Windows
import Inbetween.Proofs.Landings
import Inbetween.Proofs.Paces
import Inbetween.Proofs.RoundedCycles
import Inbetween.Proofs.RoundedWraps
