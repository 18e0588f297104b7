import ArrayFlow.Id

/-!
# Flow graph

The edges of the control-flow graph that the analysis went along, ordered by source, target and
direction.

* `FlowEdge`          : an edge, marked if it leads back to a loop header;
* `FlowGraph`         : a set of edges that may be switched off;
* `FlowGraph.add`     : adds an edge, unless switched off.
-/

namespace ArrayFlow

structure FlowEdge where
  source : BlockId
  target : BlockId
  isBack : Bool
  deriving DecidableEq, Inhabited, Repr

namespace FlowEdge

/-- Edges are ordered by source, then target, then forward before back. -/
protected def compare : FlowEdge → FlowEdge → Ordering :=
  compareLex (compareOn source) (compareLex (compareOn target) (compareOn isBack))

instance : Ord FlowEdge := ⟨FlowEdge.compare⟩

instance : Std.TransOrd FlowEdge :=
  inferInstanceAs (Std.TransCmp
    (compareLex (compareOn source) (compareLex (compareOn target) (compareOn isBack))))

instance : Std.LawfulEqOrd FlowEdge where
  eq_of_compare {a b} h := by
    obtain ⟨hs, h⟩ := eq_of_compareLex (show FlowEdge.compare a b = .eq from h)
    obtain ⟨ht, hb⟩ := eq_of_compareLex h
    have hs := eq_of_compareOn hs
    have ht := eq_of_compareOn ht
    have hb := eq_of_compareOn hb
    cases a; cases b; simp_all

end FlowEdge

/-- The edges followed so far. -/
structure FlowGraph where
  enabled : Bool
  edges : Std.ExtTreeSet FlowEdge

namespace FlowGraph

def empty (enabled : Bool) : FlowGraph := ⟨enabled, ∅⟩

/-- Adds an edge, unless the graph is switched off. -/
def add (g : FlowGraph) (source target : BlockId) (isBack : Bool) : FlowGraph :=
  if g.enabled then { g with edges := g.edges.insert ⟨source, target, isBack⟩ } else g

def toList (g : FlowGraph) : List FlowEdge := g.edges.toList

/-- The edges that lead back to a loop header. -/
def backEdges (g : FlowGraph) : List FlowEdge := g.toList.filter (·.isBack)

/-- Was the step from `source` to `target` followed, in either direction? -/
def contains (g : FlowGraph) (source target : BlockId) : Bool :=
  g.edges.contains ⟨source, target, false⟩ || g.edges.contains ⟨source, target, true⟩

end FlowGraph

end ArrayFlow
