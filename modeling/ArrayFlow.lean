import ArrayFlow.Order
import ArrayFlow.Id
import ArrayFlow.Statement
import ArrayFlow.Text.Alphanumeric
import ArrayFlow.Text.Identifier
import ArrayFlow.Text.EditDistance
import ArrayFlow.Text.Decimal
import ArrayFlow.Binary64
import ArrayFlow.Json.Basic
import ArrayFlow.Json.Parser
import ArrayFlow.Json.Printer
import ArrayFlow.Fault
import ArrayFlow.Diagnostic
import ArrayFlow.Procedure.Basic
import ArrayFlow.Procedure.Draft
import ArrayFlow.Procedure.Interchange
import ArrayFlow.Version
import ArrayFlow.Bindings
import ArrayFlow.Exposed
import ArrayFlow.History
import ArrayFlow.FlowGraph
import ArrayFlow.DefUse.Node
import ArrayFlow.DefUse.Edge
import ArrayFlow.DefUse.Graph
import ArrayFlow.DefUse.Query
import ArrayFlow.Yaml.Value
import ArrayFlow.Yaml.Token
import ArrayFlow.Yaml.Node
import ArrayFlow.Settings.Basic
import ArrayFlow.Failure
import ArrayFlow.Settings.Document
import ArrayFlow.Analysis.Facts
import ArrayFlow.Analysis.Transfer
import ArrayFlow.Analysis.Merge
import ArrayFlow.Analysis.Machine
import ArrayFlow.Analysis.Report
import ArrayFlow.Analysis.Interchange
import ArrayFlow.Proofs.WellFormed
import ArrayFlow.Proofs.Tables
import ArrayFlow.Proofs.Steps
import ArrayFlow.Proofs.Runs
import ArrayFlow.Proofs.Origin
import ArrayFlow.Proofs.Stores
import ArrayFlow.Proofs.Provenance
import ArrayFlow.Proofs.Findings
import ArrayFlow.Proofs.Linking
import ArrayFlow.Proofs.Reads
import ArrayFlow.Proofs.Bounds
import ArrayFlow.Proofs.Nesting
import ArrayFlow.Proofs.Coverage
import ArrayFlow.Proofs.Exploration
import ArrayFlow.Proofs.Renames
import ArrayFlow.Proofs.Edges
import ArrayFlow.Proofs.Ledger
import ArrayFlow.Proofs.Lockstep
import ArrayFlow.Proofs.Acyclic
import ArrayFlow.Proofs.Reaching
import ArrayFlow.Proofs.Headers
import ArrayFlow.Proofs.Pending
import ArrayFlow.Proofs.Clean
import ArrayFlow.Proofs.Progress
import ArrayFlow.Proofs.Region
import ArrayFlow.Proofs.Layout
import ArrayFlow.Proofs.Structured
import ArrayFlow.Proofs.Pruning
import ArrayFlow.Proofs.Monotone
import ArrayFlow.Proofs.Control
import ArrayFlow.Proofs.Subgraph
import ArrayFlow.Proofs.Observers
import ArrayFlow.Proofs.Separation
import ArrayFlow.Proofs.Faults
import ArrayFlow.Proofs.Strictness
import ArrayFlow.Proofs.Limits
import ArrayFlow.Proofs.Leftover
import ArrayFlow.Proofs.Flow
import ArrayFlow.Proofs.BackEdges
import ArrayFlow.Proofs.Chronicle
import ArrayFlow.Proofs.Records
import ArrayFlow.Proofs.RoundTrip
import ArrayFlow.Proofs.Spans
import ArrayFlow.Proofs.Stalls
import ArrayFlow.Proofs.Reentry
import ArrayFlow.Proofs.Merges
import ArrayFlow.Proofs.KeyIndex
import ArrayFlow.Proofs.Transitive
import ArrayFlow.Proofs.Identifiers
import ArrayFlow.Proofs.Building
import ArrayFlow.Proofs.Numbers
import ArrayFlow.Proofs.StraightLine
import ArrayFlow.Proofs.EditScripts
import ArrayFlow.Proofs.Identity
import ArrayFlow.Proofs.Acceptance
import ArrayFlow.Proofs.Bookkeeping
