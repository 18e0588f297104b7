import ArrayFlow.Analysis.Report
import ArrayFlow.Procedure.Interchange
import ArrayFlow.Json.Printer

/-!
# Results in the interchange format

* `toJson` of versions, bindings, graphs, histories, findings, reports and their sizes;
* `Report.compact`, `Report.pretty` : the texts of a report.

Fields stand in a fixed order. Maps are objects in the order of their keys.
-/

namespace ArrayFlow

/-- A value that may be absent, `null` if it is. -/
def Json.ofOption {α : Type} (f : α → Json) : Option α → Json
  | some a => f a
  | none => .null

def BlockId.toJson (b : BlockId) : Json := .nat b.index

def StmtId.toJson (s : StmtId) : Json := .nat s.index

/-! ## versions -/

mutual

/-- A version is a record that starts with its kind. -/
def Version.toJson : Version → Json
  | .single n b s l w r =>
    .obj [("type", .str "single"), ("version", .nat n), ("producing_block", b.toJson),
      ("producing_stmt", s.toJson),
      ("line", .nat l), ("written", .bool w), ("read", .bool r)]
  | .phi n vs b l =>
    .obj [("type", .str "phi"), ("version", .nat n), ("inputs", .arr (Version.listToJson vs)),
      ("producing_block", b.toJson), ("line", .nat l)]

def Version.listToJson : List Version → List Json
  | [] => []
  | v :: vs => Version.toJson v :: Version.listToJson vs

end

/-- A number, or the list of merged numbers. -/
def Signature.toJson : Signature → Json
  | single n => .nat n
  | phi ns => .arr (ns.map .nat)

def Bindings.toJson (t : Bindings) : Json := .obj (t.toList.map fun (base, v) => (base, v.toJson))

def Exposed.toJson (x : Exposed) : Json :=
  .obj (x.toList.map fun (b, t) => (b.index.repr, Bindings.toJson t))

/-! ## the def-use graph -/

namespace DefUse

def Role.toJson : Role → Json
  | defines => .str "def"
  | uses => .str "use"

def Key.toJson (k : Key) : Json :=
  .obj [("base", .str k.base), ("signature", k.signature.toJson), ("kind", k.role.toJson)]

def Node.toJson (n : Node) : Json :=
  .obj [("kind", n.role.toJson), ("base_name", .str n.base), ("version", n.version.toJson),
    ("index", n.index.toJson), ("block_id", n.block.toJson),
    ("statement_id", .ofOption StmtId.toJson n.stmt), ("statement", .str n.text),
    ("augmented", .str n.augmented), ("line", .nat n.line), ("base_def", .bool n.isBase)]

def Site.toJson : Site → Json
  | stmt s => .obj [("stmt", s.toJson)]
  | synthetic t => .obj [("synthetic", .str t)]

def EdgeKey.toJson (k : EdgeKey) : Json := .obj [("def", k.source.toJson), ("use", k.target.toJson)]

def Reason.toJson : Reason → Json
  | indexMatch => .str "index_match"
  | phiReach => .str "phi_reach"

/-- An edge is a record of two positions, a key and a reason. -/
def Edge.toJson (e : Edge) : Json :=
  .obj [("def", .nat e.source), ("use", .nat e.target), ("key", e.key.toJson),
    ("reason", e.reason.toJson)]

def Rejection.toJson (r : Rejection) : Json :=
  .obj [("def", r.source.toJson), ("use", r.target.toJson), ("def_index", r.sourceIndex.toJson),
    ("use_index", r.targetIndex.toJson), ("use_statement", .ofOption StmtId.toJson r.targetStmt)]

/-- A graph is a record of nodes, edges and rejected pairs. -/
def Graph.toJson (g : Graph) : Json :=
  .obj [("nodes", .arr (g.nodes.toList.map Node.toJson)),
    ("edges", .arr (g.edges.toList.map Edge.toJson)),
    ("rejected", .arr (g.rejected.map Rejection.toJson))]

def Stats.toJson (s : Stats) : Json :=
  .obj [("node_count", .nat s.nodes), ("edge_count", .nat s.edges), ("def_nodes", .nat s.defNodes),
    ("use_nodes", .nat s.useNodes), ("phi_nodes", .nat s.phiNodes),
    ("index_match_edges", .nat s.indexEdges), ("phi_edges", .nat s.phiEdges),
    ("rejected_pairs", .nat s.rejected)]

end DefUse

/-! ## history, flow and findings -/

def Origin.toJson : Origin → Json
  | create => .str "create"
  | write => .str "write"
  | phi => .str "phi"
  | rename => .str "rename"

def Record.toJson (r : Record) : Json :=
  .obj [("version", r.version.toJson), ("origin", r.origin.toJson), ("block", r.block.toJson),
    ("statement", .ofOption StmtId.toJson r.stmt), ("line", .nat r.line)]

def History.toJson (h : History) : Json :=
  .obj (h.toList.map fun (base, rs) => (base, .arr (rs.map Record.toJson)))

def FlowEdge.toJson (e : FlowEdge) : Json :=
  .obj [("from", e.source.toJson), ("to", e.target.toJson), ("back_edge", .bool e.isBack)]

/-- A flow graph is a record of its edges. -/
def FlowGraph.toJson (g : FlowGraph) : Json := .obj [("edges", .arr (g.toList.map FlowEdge.toJson))]

def DiagnosticKind.toJson : DiagnosticKind → Json
  | danglingUse => .str "dangling_use"
  | loopReentry => .str "loop_worklist_reentry"
  | loopLimit => .str "worklist_limit_exceeded"
  | unreachableMerge => .str "unreachable_merge"
  | other => .str "other"

def Diagnostic.toJson (d : Diagnostic) : Json :=
  .obj [("kind", d.kind.toJson), ("block", .ofOption BlockId.toJson d.block),
    ("statement", .ofOption StmtId.toJson d.stmt), ("message", .str d.message)]

def FalsePhi.toJson (p : FalsePhi) : Json :=
  .obj [("block", p.block.toJson), ("base", .str p.base),
    ("contributors", .ofBlocks p.contributors)]

/-! ## reports -/

def ReportStats.toJson (s : ReportStats) : Json :=
  .obj [("graph", s.graph.toJson), ("arrays", .nat s.arrays), ("versions", .nat s.versions),
    ("new_arrays", .nat s.creations), ("false_phis", .nat s.falsePhis),
    ("diagnostics", .nat s.diagnostics), ("flow_edges", .nat s.flowEdges),
    ("back_edges", .nat s.backEdges)]

namespace Report

/-- A report is a record of all that was found. -/
def toJson (r : Report) : Json :=
  .obj [("procedure_id", .str r.procedure), ("graph", r.facts.graph.toJson),
    ("exposed", r.facts.exposed.toJson), ("history", r.facts.history.toJson),
    ("new_array_statements", .arr (r.facts.creations.toList.map StmtId.toJson)),
    ("flow_graph", r.facts.flow.toJson),
    ("false_phis", .arr (r.facts.falsePhis.map FalsePhi.toJson)),
    ("diagnostics", .arr (r.facts.diagnostics.map Diagnostic.toJson))]

def compact (r : Report) : String := r.toJson.compact

def pretty (r : Report) : String := r.toJson.pretty

end Report

end ArrayFlow
