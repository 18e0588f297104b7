import ArrayFlow.Analysis.Machine
import ArrayFlow.Failure
import ArrayFlow.DefUse.Query

/-!
# The analysis of a procedure

* `Report`        : the facts of a finished analysis, with their size in `Report.stats`;
* `analyze`       : the report on a procedure, or the fault that stopped the analysis;
* `analyzeAll`    : reports on many procedures, each on its own.
-/

namespace ArrayFlow

/-- The result of an analysis. -/
structure Report where
  procedure : String
  facts : Facts

/-- A number of steps that is always enough. Each of the `n` edges, and the entry, gives rise to at
most one visit, one claimed block and one loop; and between two blocks of a loop each waiting block
is put back at most once. -/
def Procedure.stepBound (p : Procedure) : Nat :=
  let n := p.blocks.foldr (fun b n => b.successors.length + n) 1
  2 * (n + 2) * (n + 2)

/-- The analysis of one procedure. -/
def analyze (p : Procedure) (s : Settings) : Except Fault Report :=
  if p.contains p.entry then do
    let m ← Machine.run p s p.stepBound (.start p s)
    return ⟨p.name, m.conclude⟩
  else .error (.blockNotFound p.entry)

structure Outcome where
  procedure : String
  result : Except Fault Report

/-- The analysis of procedures that have nothing to do with each other. Settings out of range are
refused. -/
def analyzeAll (ps : List Procedure) (s : Settings) : Except Failure (List Outcome) :=
  match s.validate with
  | .ok _ => .ok (ps.map fun p => ⟨p.name, analyze p s⟩)
  | .error f => .error (.settings f)

/-! ## size of a report -/

structure ReportStats where
  graph : DefUse.Stats
  arrays : Nat
  versions : Nat
  creations : Nat
  falsePhis : Nat
  diagnostics : Nat
  flowEdges : Nat
  backEdges : Nat
  deriving DecidableEq, Inhabited, Repr

namespace Report

def stats (r : Report) : ReportStats where
  graph := r.facts.graph.stats
  arrays := r.facts.history.bases.length
  versions := r.facts.history.total
  creations := r.facts.creations.toList.length
  falsePhis := r.facts.falsePhis.length
  diagnostics := r.facts.diagnostics.length
  flowEdges := r.facts.flow.toList.length
  backEdges := r.facts.flow.backEdges.length

def hasDiagnostics (r : Report) : Bool := !r.facts.diagnostics.isEmpty

end Report

end ArrayFlow
