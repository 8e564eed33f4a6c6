import Abacus.Main
import Abacus.Prompt.Completion
import Abacus.Prompt.Highlight
import Abacus.Proofs.Prompt.Validation
import Abacus.Proofs.Report.Labels
import Abacus.Proofs.Run.Unwinding
import Abacus.Proofs.Sequence.Delivery
import Abacus.Proofs.Sequence.Pipeline
import Abacus.Proofs.Sequence.Truthful
import Abacus.Proofs.Store.Depth
import Abacus.Proofs.Store.Isolation
import Abacus.Proofs.Store.ScopeCalls
import Abacus.Proofs.Syntax.Incomplete
import Abacus.Proofs.Syntax.RoundTrip
import Abacus.Store.Inspect
import Abacus.Proofs.Run.LocalWord
import Abacus.Proofs.Syntax.Precedence
import Abacus.Proofs.Run.PrintedValues
import Abacus.Proofs.Sequence.Abreast
import Abacus.Proofs.Sequence.Below
import Abacus.Proofs.Sequence.Taking
import Abacus.Proofs.Sequence.Survivors
import Abacus.Proofs.Sequence.Apart
import Abacus.Proofs.Sequence.Zipping
import Abacus.Proofs.Sequence.Failing
import Abacus.Proofs.Run.Recordings
import Abacus.Proofs.Sequence.Applications
import Abacus.Proofs.Sequence.Reentrance
import Abacus.Proofs.Sequence.Ranges
import Abacus.Proofs.Store.Sharing
import Abacus.Proofs.Number.Commutation
import Abacus.Proofs.Run.Operands
import Abacus.Proofs.Run.Commutation
import Abacus.Proofs.Run.Shapes
import Abacus.Proofs.Run.Extrema
import Abacus.Proofs.Prompt.Completion
import Abacus.Proofs.Store.Assignment
import Abacus.Proofs.Store.Visibility
import Abacus.Proofs.Syntax.Culprits
import Abacus.Proofs.Syntax.CarriageReturns
import Abacus.Proofs.Syntax.LineBreaks
import Abacus.Proofs.Store.Equalities
import Abacus.Proofs.Prompt.Brackets
import Abacus.Proofs.Prompt.Colours
import Abacus.Proofs.Syntax.WellFormed
import Abacus.Proofs.Run.Guards
import Abacus.Proofs.Prompt.Progress
import Abacus.Proofs.Syntax.Provenance
