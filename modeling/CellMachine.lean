import CellMachine.Machine.Inspect
import CellMachine.Main
import CellMachine.Proofs.BoundsChecks
import CellMachine.Proofs.Validity
import CellMachine.Proofs.FaultSafety
import CellMachine.Proofs.StackRegion
import CellMachine.Proofs.DirectTarget
import CellMachine.Proofs.ParsedLines
import CellMachine.Proofs.Labels
import CellMachine.Proofs.Acceptance
import CellMachine.Proofs.Tokens
import CellMachine.Proofs.Notation
import CellMachine.Proofs.Directives
import CellMachine.Proofs.Reassembly
import CellMachine.Proofs.InPlace
import CellMachine.Proofs.Effects
import CellMachine.Proofs.Frames
import CellMachine.Proofs.Histories
import CellMachine.Proofs.WordSized
import CellMachine.Proofs.Confinement
import CellMachine.Proofs.CallReturn
import CellMachine.Proofs.ParseErrors
import CellMachine.Proofs.LabelReferences
import CellMachine.Proofs.SourceLoading
import CellMachine.Proofs.ExitStatus
import CellMachine.Proofs.BitVectors
import CellMachine.Proofs.StackRefinement
import CellMachine.Proofs.LineGrammar
import CellMachine.Proofs.Observations
import CellMachine.Proofs.Literals
import CellMachine.Proofs.FailedAccess
import CellMachine.Proofs.LinePositions
import CellMachine.Proofs.Pasting
import CellMachine.Proofs.SnapshotDiffs
import CellMachine.Proofs.WrittenText
import CellMachine.Proofs.StaticFlow
import CellMachine.Proofs.LabelFlow
import CellMachine.Proofs.ForwardFlow
import CellMachine.Proofs.HexDumps
import CellMachine.Proofs.Tracing
