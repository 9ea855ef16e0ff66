import ResumableVM.Cli.Command
import ResumableVM.Cli.Report
import ResumableVM.Code.Basic
import ResumableVM.Code.Listing
import ResumableVM.Code.Summary
import ResumableVM.Compile.Assembly
import ResumableVM.Compile.Basic
import ResumableVM.Compile.Captures
import ResumableVM.Compile.Dataflow
import ResumableVM.Compile.Lower
import ResumableVM.Compile.RegisterTypes
import ResumableVM.Error
import ResumableVM.Graph.Basic
import ResumableVM.Graph.Builder
import ResumableVM.Graph.Check
import ResumableVM.Graph.Document
import ResumableVM.Graph.Error
import ResumableVM.Json.Basic
import ResumableVM.Json.Decoder
import ResumableVM.Json.Number
import ResumableVM.Json.Reader
import ResumableVM.Json.Token
import ResumableVM.Json.Writer
import ResumableVM.Machine.Activation
import ResumableVM.Machine.Basic
import ResumableVM.Machine.Channel
import ResumableVM.Machine.Configuration
import ResumableVM.Machine.Description
import ResumableVM.Machine.Frame
import ResumableVM.Machine.Host
import ResumableVM.Machine.Request
import ResumableVM.Machine.Run
import ResumableVM.Machine.Window
import ResumableVM.Main
import ResumableVM.Numeric.Binary64
import ResumableVM.Numeric.Layout
import ResumableVM.Numeric.Numeral
import ResumableVM.Numeric.Shortest
import ResumableVM.Numeric.Word
import ResumableVM.Operator
import ResumableVM.Proofs.Acceptance
import ResumableVM.Proofs.Addresses
import ResumableVM.Proofs.Awaiting
import ResumableVM.Proofs.Borders
import ResumableVM.Proofs.BuiltProcedures
import ResumableVM.Proofs.CallDepth
import ResumableVM.Proofs.CapturePaths
import ResumableVM.Proofs.Captures
import ResumableVM.Proofs.Checked
import ResumableVM.Proofs.CheckedAnalyses
import ResumableVM.Proofs.CheckedCode
import ResumableVM.Proofs.Closures
import ResumableVM.Proofs.CoherentLines
import ResumableVM.Proofs.Compilation
import ResumableVM.Proofs.CompiledCode
import ResumableVM.Proofs.Consistency
import ResumableVM.Proofs.Continuation
import ResumableVM.Proofs.Dataflow
import ResumableVM.Proofs.Decoders
import ResumableVM.Proofs.Departures
import ResumableVM.Proofs.DirectStyle
import ResumableVM.Proofs.Disassembly
import ResumableVM.Proofs.Doubles
import ResumableVM.Proofs.Execution
import ResumableVM.Proofs.FiniteDoubles
import ResumableVM.Proofs.Fitting
import ResumableVM.Proofs.FloorDivision
import ResumableVM.Proofs.Hosted
import ResumableVM.Proofs.Independence
import ResumableVM.Proofs.IndexChains
import ResumableVM.Proofs.JsonNumbers
import ResumableVM.Proofs.JsonText
import ResumableVM.Proofs.Keys
import ResumableVM.Proofs.Layout
import ResumableVM.Proofs.LeastTypes
import ResumableVM.Proofs.Likeness
import ResumableVM.Proofs.Limits
import ResumableVM.Proofs.ListingTexts
import ResumableVM.Proofs.Listings
import ResumableVM.Proofs.Lowering
import ResumableVM.Proofs.Maps
import ResumableVM.Proofs.NamedCalls
import ResumableVM.Proofs.NamedRoutines
import ResumableVM.Proofs.NamedStores
import ResumableVM.Proofs.Naming
import ResumableVM.Proofs.NestedCalls
import ResumableVM.Proofs.NestedResumptions
import ResumableVM.Proofs.Nesting
import ResumableVM.Proofs.NumberOrder
import ResumableVM.Proofs.NumberTexts
import ResumableVM.Proofs.NumericStrings
import ResumableVM.Proofs.Operations
import ResumableVM.Proofs.Packing
import ResumableVM.Proofs.Parked
import ResumableVM.Proofs.PlainLoop
import ResumableVM.Proofs.PointwiseComparison
import ResumableVM.Proofs.Positions
import ResumableVM.Proofs.Protection
import ResumableVM.Proofs.Regions
import ResumableVM.Proofs.RegisterTypes
import ResumableVM.Proofs.Renaming
import ResumableVM.Proofs.Results
import ResumableVM.Proofs.ReturnTypes
import ResumableVM.Proofs.RoundTrip
import ResumableVM.Proofs.RoundedIntegers
import ResumableVM.Proofs.Routines
import ResumableVM.Proofs.SavedFrames
import ResumableVM.Proofs.Scope
import ResumableVM.Proofs.Scripts
import ResumableVM.Proofs.Service
import ResumableVM.Proofs.Shapes
import ResumableVM.Proofs.ShortestDigits
import ResumableVM.Proofs.SlotModes
import ResumableVM.Proofs.SoundDocuments
import ResumableVM.Proofs.Stack
import ResumableVM.Proofs.StaticTypes
import ResumableVM.Proofs.Suspensions
import ResumableVM.Proofs.Tables
import ResumableVM.Proofs.TailCalls
import ResumableVM.Proofs.Trampoline
import ResumableVM.Proofs.Transparency
import ResumableVM.Proofs.TypedRegisters
import ResumableVM.Proofs.Unheard
import ResumableVM.Proofs.Walk
import ResumableVM.Proofs.WellFormed
import ResumableVM.Proofs.WellFormedCode
import ResumableVM.Proofs.Windows
import ResumableVM.Proofs.Work
import ResumableVM.Proofs.Worklist
import ResumableVM.Routine.Base
import ResumableVM.Routine.Basic
import ResumableVM.Routine.Library
import ResumableVM.Routine.Pausing
import ResumableVM.Routine.Sequence
import ResumableVM.Store.Basic
import ResumableVM.Store.Comparison
import ResumableVM.Table
import ResumableVM.Text.Blank
import ResumableVM.Text.Printable
import ResumableVM.Text.Quoted
import ResumableVM.Toml.Basic
import ResumableVM.Toml.Document
import ResumableVM.Toml.Parser
import ResumableVM.Toml.Scalar
import ResumableVM.Toml.Text
import ResumableVM.Toml.Value
import ResumableVM.Types.Comparison
import ResumableVM.Types.Document
import ResumableVM.Types.TypeSeq
import ResumableVM.Types.ValueType
import ResumableVM.Value.Arithmetic
import ResumableVM.Value.Basic
import ResumableVM.Value.Number
