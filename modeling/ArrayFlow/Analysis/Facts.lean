import ArrayFlow.DefUse.Graph
import ArrayFlow.Exposed
import ArrayFlow.History
import ArrayFlow.FlowGraph
import ArrayFlow.Diagnostic
import ArrayFlow.Settings.Basic
import ArrayFlow.Procedure.Basic

/-!
# What the analysis has found

* `Facts`         : everything found so far; it only grows, but for exposed bindings that are set
  anew;
* `Facts.start`   : nothing yet;
* `Facts.recover` : goes on after a fault, unless the settings say otherwise.
-/

namespace ArrayFlow

/-- What the analysis has found so far. -/
structure Facts where
  graph : DefUse.Graph
  exposed : Exposed
  history : History
  /-- The statements that create an array. -/
  creations : Std.ExtTreeSet StmtId
  flow : FlowGraph
  falsePhis : List FalsePhi
  diagnostics : List Diagnostic

namespace Facts

/-- Nothing found yet. -/
def start (s : Settings) : Facts where
  graph := .empty s.recordRejected
  exposed := ∅
  history := ∅
  creations := ∅
  flow := .empty s.recordFlow
  falsePhis := []
  diagnostics := []

def report (f : Facts) (d : Diagnostic) : Facts := { f with diagnostics := f.diagnostics ++ [d] }

def define (f : Facts) (n : DefUse.Node) : Facts := { f with graph := (f.graph.addDef n).2 }

def record (f : Facts) (base : String) (r : Record) : Facts :=
  { f with history := f.history.record base r }

def flowTo (f : Facts) (source target : BlockId) (isBack : Bool) : Facts :=
  { f with flow := f.flow.add source target isBack }

def expose (f : Facts) (b : BlockId) (t : Bindings) : Facts :=
  { f with exposed := f.exposed.snapshot b t }

/-- Notes a fault and goes on; under strict settings a dangling use stops the analysis. -/
def recover (s : Settings) (f : Facts) (fault : Fault) : Except Fault Facts :=
  match fault with
  | .danglingUse .. => if s.strictUses then .error fault else .ok (f.report (.ofFault fault))
  | _ => .ok (f.report (.ofFault fault))

end Facts

end ArrayFlow
