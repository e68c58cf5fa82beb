import Reckoner.Benchmark.Measure
import Reckoner.Benchmark.Suite
import Reckoner.Code.Instruction
import Reckoner.Code.Listing
import Reckoner.Code.Operation
import Reckoner.Code.Routine
import Reckoner.Command.Address
import Reckoner.Command.Basic
import Reckoner.Command.Dispatch
import Reckoner.Command.Flags
import Reckoner.Command.Number
import Reckoner.Command.Workspace
import Reckoner.Compiler.Basic
import Reckoner.Compiler.Diagnostic
import Reckoner.Compiler.Expression
import Reckoner.Compiler.Scope
import Reckoner.Compiler.State
import Reckoner.Compiler.Statement
import Reckoner.Decimal.Arithmetic
import Reckoner.Decimal.Basic
import Reckoner.Decimal.Binary
import Reckoner.Decimal.BinaryArithmetic
import Reckoner.Decimal.Display
import Reckoner.Decimal.Exponential
import Reckoner.Decimal.FixedPoint
import Reckoner.Decimal.IntegerPower
import Reckoner.Decimal.Literal
import Reckoner.Decimal.Logarithm
import Reckoner.Decimal.Power
import Reckoner.Editor.Assistance
import Reckoner.Editor.Basic
import Reckoner.Editor.Words
import Reckoner.Engine.Basic
import Reckoner.Engine.Function
import Reckoner.Exchange.Arguments
import Reckoner.Exchange.Datum
import Reckoner.Exchange.IntegerType
import Reckoner.Exchange.Target
import Reckoner.Files.Path
import Reckoner.Files.Tree
import Reckoner.Journal.Basic
import Reckoner.Journal.Entry
import Reckoner.Machine.Fault
import Reckoner.Machine.Host
import Reckoner.Machine.Run
import Reckoner.Machine.Stack
import Reckoner.Machine.State
import Reckoner.Machine.Step
import Reckoner.Machine.Value
import Reckoner.Main
import Reckoner.Prompt.Basic
import Reckoner.Prompt.Reading
import Reckoner.Proofs.Code.Flow
import Reckoner.Proofs.Code.Layout
import Reckoner.Proofs.Code.Pooling
import Reckoner.Proofs.Code.RoundTrip
import Reckoner.Proofs.Code.Validity
import Reckoner.Proofs.Compiler.Breaks
import Reckoner.Proofs.Compiler.ClauseVerdict
import Reckoner.Proofs.Compiler.Clauses
import Reckoner.Proofs.Compiler.Course
import Reckoner.Proofs.Compiler.Emission
import Reckoner.Proofs.Compiler.Expression
import Reckoner.Proofs.Compiler.ExpressionVerdict
import Reckoner.Proofs.Compiler.Filing
import Reckoner.Proofs.Compiler.Forms
import Reckoner.Proofs.Compiler.Guarded
import Reckoner.Proofs.Compiler.Language
import Reckoner.Proofs.Compiler.Lines
import Reckoner.Proofs.Compiler.Literals
import Reckoner.Proofs.Compiler.Locals
import Reckoner.Proofs.Compiler.LoopVerdict
import Reckoner.Proofs.Compiler.Progress
import Reckoner.Proofs.Compiler.Reports
import Reckoner.Proofs.Compiler.RoutineVerdict
import Reckoner.Proofs.Compiler.Routines
import Reckoner.Proofs.Compiler.Scope
import Reckoner.Proofs.Compiler.Source
import Reckoner.Proofs.Compiler.Statement
import Reckoner.Proofs.Compiler.StatementVerdict
import Reckoner.Proofs.Compiler.Stock
import Reckoner.Proofs.Compiler.Stream
import Reckoner.Proofs.Compiler.Totality
import Reckoner.Proofs.Compiler.Unlined
import Reckoner.Proofs.Compiler.Verdict
import Reckoner.Proofs.Decimal.Arithmetic
import Reckoner.Proofs.Decimal.Digits
import Reckoner.Proofs.Decimal.Display
import Reckoner.Proofs.Decimal.Numeral
import Reckoner.Proofs.Decimal.Remainder
import Reckoner.Proofs.Decimal.Rounding
import Reckoner.Proofs.Editor.Declared
import Reckoner.Proofs.Editor.Marks
import Reckoner.Proofs.Engine.Conduct
import Reckoner.Proofs.Engine.FrontEnds
import Reckoner.Proofs.Exchange.Integers
import Reckoner.Proofs.Journal.Log
import Reckoner.Proofs.Machine.Agreement
import Reckoner.Proofs.Machine.Bounds
import Reckoner.Proofs.Machine.Calls
import Reckoner.Proofs.Machine.Clean
import Reckoner.Proofs.Machine.Contents
import Reckoner.Proofs.Machine.Course
import Reckoner.Proofs.Machine.Decoding
import Reckoner.Proofs.Machine.Execution
import Reckoner.Proofs.Machine.Expressions
import Reckoner.Proofs.Machine.Headroom
import Reckoner.Proofs.Machine.Legible
import Reckoner.Proofs.Machine.Lifting
import Reckoner.Proofs.Machine.Limits
import Reckoner.Proofs.Machine.Locality
import Reckoner.Proofs.Machine.Loops
import Reckoner.Proofs.Machine.Meaning
import Reckoner.Proofs.Machine.Numbers
import Reckoner.Proofs.Machine.Operations
import Reckoner.Proofs.Machine.Order
import Reckoner.Proofs.Machine.OwnName
import Reckoner.Proofs.Machine.Placement
import Reckoner.Proofs.Machine.Printing
import Reckoner.Proofs.Machine.Programs
import Reckoner.Proofs.Machine.Restoration
import Reckoner.Proofs.Machine.Safety
import Reckoner.Proofs.Machine.Stack
import Reckoner.Proofs.Machine.Statements
import Reckoner.Proofs.Machine.Trace
import Reckoner.Proofs.Machine.Twins
import Reckoner.Proofs.Prompt.Reading
import Reckoner.Proofs.Script.Accesses
import Reckoner.Proofs.Script.Assembly
import Reckoner.Proofs.Script.Depth
import Reckoner.Proofs.Script.Entries
import Reckoner.Proofs.Script.Grammar
import Reckoner.Proofs.Script.Image
import Reckoner.Proofs.Script.Joints
import Reckoner.Proofs.Script.Legality
import Reckoner.Proofs.Script.Nearest
import Reckoner.Proofs.Script.Phrases
import Reckoner.Proofs.Script.Plain
import Reckoner.Proofs.Script.Pool
import Reckoner.Proofs.Script.Reader
import Reckoner.Proofs.Script.Rephrasing
import Reckoner.Proofs.Script.Semantics
import Reckoner.Proofs.Script.Sentences
import Reckoner.Proofs.Script.Tree
import Reckoner.Proofs.Service.Isolation
import Reckoner.Proofs.Service.Output
import Reckoner.Proofs.Service.Serialisation
import Reckoner.Proofs.Service.Stopping
import Reckoner.Proofs.Token.Numbers
import Reckoner.Proofs.Token.Reserved
import Reckoner.Proofs.Token.Scan
import Reckoner.Proofs.Token.Spacing
import Reckoner.Proofs.Token.Spans
import Reckoner.Proofs.Token.Tiling
import Reckoner.Proofs.Token.Words
import Reckoner.Service.Basic
import Reckoner.Service.Worker
import Reckoner.Settings.Basic
import Reckoner.Text.Age
import Reckoner.Text.Blank
import Reckoner.Text.Columns
import Reckoner.Text.Digits
import Reckoner.Text.Grouped
import Reckoner.Text.Lines
import Reckoner.Text.LowerCase
import Reckoner.Text.Printable
import Reckoner.Text.Quoted
import Reckoner.Token.Basic
import Reckoner.Token.Scan
import Reckoner.Toml.Basic
import Reckoner.Toml.Moment
import Reckoner.Toml.Number
import Reckoner.Toml.Quoted
import Reckoner.Toml.Reader
import Reckoner.Toml.Table
