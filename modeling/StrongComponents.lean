import StrongComponents.Binary64.Basic
import StrongComponents.Binary64.Decimal
import StrongComponents.CommandLine.Command
import StrongComponents.CommandLine.File
import StrongComponents.CommandLine.Run
import StrongComponents.CommandLine.Usage
import StrongComponents.Components.Decomposition
import StrongComponents.Components.Order
import StrongComponents.Components.Partition
import StrongComponents.Components.Passes
import StrongComponents.Failure
import StrongComponents.Graph.Basic
import StrongComponents.Graph.Error
import StrongComponents.Graph.Reachability
import StrongComponents.GraphFile.Basic
import StrongComponents.GraphFile.Reader
import StrongComponents.GraphFile.Schema
import StrongComponents.GraphFile.Validation
import StrongComponents.Json.Basic
import StrongComponents.Json.Fault
import StrongComponents.Json.Numeral
import StrongComponents.Json.Printer
import StrongComponents.Json.Quotation
import StrongComponents.Json.Token
import StrongComponents.Json.Tree
import StrongComponents.Labeled.Basic
import StrongComponents.Labeled.EdgeList
import StrongComponents.Labeled.Label
import StrongComponents.Main
import StrongComponents.Proofs.CommandLine.Bounds
import StrongComponents.Proofs.CommandLine.Effects
import StrongComponents.Proofs.CommandLine.Files
import StrongComponents.Proofs.CommandLine.Grammar
import StrongComponents.Proofs.Components.Classes
import StrongComponents.Proofs.Components.Condensation
import StrongComponents.Proofs.Components.Cycles
import StrongComponents.Proofs.Components.Decomposition
import StrongComponents.Proofs.Components.DepthLimit
import StrongComponents.Proofs.Components.EdgeRelation
import StrongComponents.Proofs.Components.FinishTimes
import StrongComponents.Proofs.Components.Grouping
import StrongComponents.Proofs.Components.Leaders
import StrongComponents.Proofs.Components.Order
import StrongComponents.Proofs.Components.Partition
import StrongComponents.Proofs.Components.Passes
import StrongComponents.Proofs.Graph.Building
import StrongComponents.Proofs.Graph.Multiplicity
import StrongComponents.Proofs.Graph.Reversal
import StrongComponents.Proofs.Graph.Walk
import StrongComponents.Proofs.GraphFile.Acceptance
import StrongComponents.Proofs.GraphFile.Agreement
import StrongComponents.Proofs.GraphFile.Coverage
import StrongComponents.Proofs.GraphFile.RoundTrip
import StrongComponents.Proofs.GraphFile.Shape
import StrongComponents.Proofs.Json.Layout
import StrongComponents.Proofs.Json.Lines
import StrongComponents.Proofs.Json.Members
import StrongComponents.Proofs.Json.Numbers
import StrongComponents.Proofs.Json.RoundTrip
import StrongComponents.Proofs.Json.Tokens
import StrongComponents.Proofs.Labeled.Additions
import StrongComponents.Proofs.Labeled.Description
import StrongComponents.Proofs.Labeled.EdgeList
import StrongComponents.Proofs.Labeled.Numbering
import StrongComponents.Proofs.Labeled.Texts
import StrongComponents.Proofs.Report.Aggregation
import StrongComponents.Proofs.Report.Description
import StrongComponents.Proofs.Report.Document
import StrongComponents.Proofs.Report.Framing
import StrongComponents.Proofs.Report.Independence
import StrongComponents.Proofs.Report.Sizes
import StrongComponents.Proofs.Report.Stream
import StrongComponents.Proofs.Text.Words
import StrongComponents.Proofs.Traversal.DepthCut
import StrongComponents.Proofs.Traversal.Discovery
import StrongComponents.Proofs.Traversal.Forest
import StrongComponents.Proofs.Traversal.Frames
import StrongComponents.Proofs.Traversal.Height
import StrongComponents.Proofs.Traversal.Nesting
import StrongComponents.Proofs.Traversal.Outcome
import StrongComponents.Proofs.Traversal.Run
import StrongComponents.Proofs.Traversal.Scope
import StrongComponents.Report.Basic
import StrongComponents.Report.Compute
import StrongComponents.Report.Event
import StrongComponents.Report.Sink
import StrongComponents.Text.Blank
import StrongComponents.Text.GraphemeExtend
import StrongComponents.Text.Ignorable
import StrongComponents.Text.Pieces
import StrongComponents.Text.Quoted
import StrongComponents.Text.Ranges
import StrongComponents.Text.Unprintable
import StrongComponents.Traversal.Basic
import StrongComponents.Traversal.Nested
import StrongComponents.Traversal.Stack
import StrongComponents.Traversal.Strategy
import StrongComponents.Traversal.Worklist
