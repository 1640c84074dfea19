import CallAlign.Alignment.Data
import CallAlign.Alignment.Event
import CallAlign.Alignment.Failure
import CallAlign.Alignment.Operation
import CallAlign.Alignment.Run
import CallAlign.Bytecode.Code
import CallAlign.Bytecode.Cursor
import CallAlign.Bytecode.Instruction.Size
import CallAlign.Bytecode.Instruction.Walk
import CallAlign.Bytecode.InstructionSet
import CallAlign.Bytecode.RangeList
import CallAlign.CallSite
import CallAlign.Document.ReadError
import CallAlign.Document.Value
import CallAlign.Json.Printer
import CallAlign.Json.Reader
import CallAlign.Json.Text
import CallAlign.Number.Double
import CallAlign.Offset
import CallAlign.Proofs.Alignment.ClaimOrder
import CallAlign.Proofs.Alignment.Composition
import CallAlign.Proofs.Alignment.EventLog
import CallAlign.Proofs.Alignment.Invariance
import CallAlign.Proofs.Alignment.LogOrder
import CallAlign.Proofs.Alignment.Lookup
import CallAlign.Proofs.Alignment.Pairing
import CallAlign.Proofs.Alignment.PositionOrder
import CallAlign.Proofs.Alignment.Relocation
import CallAlign.Proofs.Alignment.ResolverLocality
import CallAlign.Proofs.Alignment.SyntheticCalls
import CallAlign.Proofs.Alignment.Termination
import CallAlign.Proofs.Alignment.Verdict
import CallAlign.Proofs.Alignment.WrittenForms
import CallAlign.Proofs.Bytecode.Agreement
import CallAlign.Proofs.Bytecode.Assembly
import CallAlign.Proofs.Bytecode.CallOffsets
import CallAlign.Proofs.Bytecode.CursorDrain
import CallAlign.Proofs.Bytecode.CursorInvariants
import CallAlign.Proofs.Bytecode.DecisiveBytes
import CallAlign.Proofs.Bytecode.ExactSizes
import CallAlign.Proofs.Bytecode.InstructionTiling
import CallAlign.Proofs.Bytecode.RangeFaults
import CallAlign.Proofs.Bytecode.RangeSplitting
import CallAlign.Proofs.Bytecode.RangeValidation
import CallAlign.Proofs.Bytecode.ScanProgress
import CallAlign.Proofs.Bytecode.SizeClasses
import CallAlign.Proofs.Settings.Acceptance
import CallAlign.Proofs.Source.LineColumns
import CallAlign.Proofs.Source.LineTiling
import CallAlign.Proofs.Types.SourceNames
import CallAlign.Search
import CallAlign.Settings
import CallAlign.Settings.Reading
import CallAlign.Settings.Toml
import CallAlign.Source.LineIndex
import CallAlign.Source.Node
import CallAlign.Source.NodeId
import CallAlign.Source.Span
import CallAlign.Text.Digits
import CallAlign.Text.Parser
import CallAlign.Text.Quoted
import CallAlign.Text.Split
import CallAlign.Toml.Reader
import CallAlign.Toml.Scalar
import CallAlign.Toml.Table
import CallAlign.Types.BinaryName
import CallAlign.Types.Resolver
