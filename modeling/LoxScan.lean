import LoxScan.Word
import LoxScan.Span
import LoxScan.Token.Kind
import LoxScan.Number.Double
import LoxScan.Number.Ladder
import LoxScan.Number.Rounding
import LoxScan.Number.Nearest
import LoxScan.Number.Decimal
import LoxScan.Number.Numeral
import LoxScan.Number.Shortest
import LoxScan.Token.Literal
import LoxScan.Token.Basic
import LoxScan.Diagnostic.Basic
import LoxScan.Scan.Position
import LoxScan.Scan.Element
import LoxScan.Scan.Fault
import LoxScan.Scan.Basic
import LoxScan.Diagnostic.Reporter
import LoxScan.Diagnostic.Queue
import LoxScan.Text.Utf8
import LoxScan.Text.Editing
import LoxScan.Log.Event
import LoxScan.Output.Sink
import LoxScan.Output.Writer
import LoxScan.Diagnostic.Color
import LoxScan.Diagnostic.Emitter
import LoxScan.Text.ByteSearch
import LoxScan.Text.Cursor
import LoxScan.Text.Operation
import LoxScan.Run.Config
import LoxScan.Run.Failure
import LoxScan.Run.Plan
import LoxScan.Run.Script
import LoxScan.Run.Prompt
import LoxScan.Run.Program
import LoxScan.Proofs.Boundary
import LoxScan.Proofs.Grammar
import LoxScan.Proofs.Placement
import LoxScan.Proofs.LongestMatch
import LoxScan.Proofs.Positions
import LoxScan.Proofs.Concatenation
import LoxScan.Proofs.Layout
import LoxScan.Scan.Sweep
import LoxScan.Proofs.ByteClasses
import LoxScan.Proofs.SweepSafety
import LoxScan.Proofs.QueueHistory
import LoxScan.Proofs.Sessions
import LoxScan.Proofs.FaultOrder
import LoxScan.Proofs.Reports
import LoxScan.Diagnostic.Operation
import LoxScan.Proofs.ReporterHistory
import LoxScan.Proofs.OutputFailures
import LoxScan.Proofs.ErrorStream
import LoxScan.Proofs.DumpReading
import LoxScan.Proofs.Lookahead
import LoxScan.Proofs.LossyDecoding
import LoxScan.Proofs.DamagedLines
import LoxScan.Proofs.ExitStatus
import LoxScan.Proofs.LogAgreement
import LoxScan.Proofs.FlushOrder
import LoxScan.Proofs.Arguments
import LoxScan.Proofs.LineEndings
import LoxScan.Proofs.OpaqueBodies
import LoxScan.Proofs.Decoration
import LoxScan.Proofs.DumpLines
import LoxScan.Proofs.Literals
import LoxScan.Proofs.DisplayedNumbers
import LoxScan.Proofs.CursorWalks
