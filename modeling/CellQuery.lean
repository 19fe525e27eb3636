import CellQuery.Main
import CellQuery.Binary.Wire
import CellQuery.Host.Scripted
import CellQuery.Session
import CellQuery.Proofs.Eval.Coupling
import CellQuery.Proofs.Eval.Rules
import CellQuery.Proofs.Eval.Equations
import CellQuery.Proofs.Host.Binding
import CellQuery.Proofs.Host.Answer
import CellQuery.Proofs.Depth.Frames
import CellQuery.Proofs.Depth.Budget
import CellQuery.Proofs.Host.Filter
import CellQuery.Proofs.Binary.Format
import CellQuery.Proofs.Binary.Reads
import CellQuery.Proofs.Binary.Readers
import CellQuery.Proofs.Binary.Shortest
import CellQuery.Proofs.Binary.RoundTrip
import CellQuery.Proofs.Host.Solved
import CellQuery.Proofs.Limits.CutOff
import CellQuery.Proofs.Session.Solved
import CellQuery.Proofs.Json.Lexing
import CellQuery.Proofs.Wire.Fault
import CellQuery.Proofs.Json.Document
import CellQuery.Proofs.Json.Holding
import CellQuery.Proofs.Json.RoundTrip
import CellQuery.Proofs.Eval.Result
import CellQuery.Proofs.Host.Growth
import CellQuery.Proofs.Host.Origin
import CellQuery.Proofs.Session.WriteOnce
import CellQuery.Proofs.Eval.Arguments
import CellQuery.Proofs.Eval.Refusal
import CellQuery.Proofs.Host.Causes
import CellQuery.Proofs.Host.Queries
import CellQuery.Proofs.Session.Reset
import CellQuery.Proofs.Depth.Room
import CellQuery.Proofs.Host.Pushdown
import CellQuery.Proofs.Binary.Scanning
import CellQuery.Proofs.Json.Spacing
import CellQuery.Proofs.Root.Independence
import CellQuery.Proofs.Wire.Spelling
import CellQuery.Proofs.Eval.Form
import CellQuery.Proofs.Host.Guarded
import CellQuery.Proofs.Host.Domain
import CellQuery.Proofs.Value.Text
import CellQuery.Proofs.Host.Conflict
import CellQuery.Proofs.CommandLine.Selection
import CellQuery.Proofs.Json.Yielding
import CellQuery.Proofs.Wire.Height
import CellQuery.Proofs.CommandLine.Depth
import CellQuery.Proofs.Report.Ink
import CellQuery.Proofs.Eval.Nested
import CellQuery.Proofs.Host.Conjunction
import CellQuery.Proofs.Eval.Unroll
import CellQuery.Proofs.Report.Colour
import CellQuery.Proofs.Host.Confluence
import CellQuery.Proofs.Host.Equality
import CellQuery.Proofs.Eval.Negation
import CellQuery.Proofs.Eval.Totals
import CellQuery.Proofs.Eval.Slices
import CellQuery.Proofs.Tag.Decoding
import CellQuery.Proofs.Value.Worklist
