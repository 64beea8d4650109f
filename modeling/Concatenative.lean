import Concatenative.Code.Agreement
import Concatenative.Code.Printer
import Concatenative.Main
import Concatenative.Proofs.Blame
import Concatenative.Proofs.Caching
import Concatenative.Proofs.Composition
import Concatenative.Proofs.Determinacy
import Concatenative.Proofs.Flattening
import Concatenative.Proofs.Invocations
import Concatenative.Proofs.Isolation
import Concatenative.Proofs.Layout
import Concatenative.Proofs.Quiescence
import Concatenative.Proofs.Lockstep
import Concatenative.Proofs.OnDemand
import Concatenative.Proofs.Operands
import Concatenative.Proofs.Respacing
import Concatenative.Proofs.Settling
import Concatenative.Proofs.StackDepth
import Concatenative.Proofs.Folding
import Concatenative.Proofs.Mapping
import Concatenative.Proofs.Wakeups
import Concatenative.Proofs.SideBySide
import Concatenative.Proofs.Reach
import Concatenative.Proofs.Rested
import Concatenative.Proofs.Calm
import Concatenative.Proofs.Sweep
import Concatenative.Proofs.Interference
import Concatenative.Proofs.Opening
import Concatenative.Proofs.Joining
import Concatenative.Proofs.Lookahead
import Concatenative.Proofs.Draining
import Concatenative.Proofs.ReadingBack
import Concatenative.Proofs.Spelling
import Concatenative.Proofs.Listing
import Concatenative.Proofs.Totals
import Concatenative.Proofs.Naming
import Concatenative.Proofs.Resolution
import Concatenative.Proofs.Arguments
import Concatenative.Proofs.Components
import Concatenative.Proofs.Containment
