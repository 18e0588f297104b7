import ArrayFlow.DefUse.Graph

/-!
# Questions to the def-use graph

Answers are positions of nodes. Neighbours of one node are listed from the newest edge to the
oldest, nodes under one key from the oldest to the newest, and each node once, where it comes up
first.

* `Graph.usesOf`, `Graph.defsReaching` : neighbours of the nodes under a key;
* `Graph.transitiveDefs` : the definitions that reach a use, and those that the merges among them
  join;
* `Graph.stats`          : how many nodes and edges of each kind there are.
-/

namespace ArrayFlow.DefUse

namespace Graph

def newest? (g : Graph) (k : Key) : Option (Nat × Node) :=
  match (g.slot k).getLast? with
  | some i => g.nodes[i]?.map (i, ·)
  | none => none

def contains (g : Graph) (k : Key) : Bool := !(g.slot k).isEmpty

def joined (g : Graph) (source target : Nat) : Bool :=
  g.edges.any fun e => e.source == source && e.target == target

def hasEdge (g : Graph) (source target : Key) : Bool :=
  (g.slot source).any fun d => (g.slot target).any fun u => g.joined d u

def incoming (g : Graph) (i : Nat) : List Nat :=
  (g.edges.toList.reverse.filter (·.target == i)).map (·.source)

def outgoing (g : Graph) (i : Nat) : List Nat :=
  (g.edges.toList.reverse.filter (·.source == i)).map (·.target)

def defsReaching (g : Graph) (k : Key) : List Nat := ((g.slot k).flatMap g.incoming).eraseDups

def usesOf (g : Graph) (k : Key) : List Nat := ((g.slot k).flatMap g.outgoing).eraseDups

/-- The definitions of the versions that the node at a position joins. -/
def joinedDefs (g : Graph) (i : Nat) : List Nat :=
  match g.nodes[i]? with
  | some n => n.version.inputs.filterMap fun v => g.resolve ⟨n.base, v.signature, .defines⟩ v
  | none => []

/-- Breadth-first search along joined definitions: `found` lists what was met so far, `queue` what
is to come. -/
def search (g : Graph) : (fuel : Nat) → (queue found : List Nat) → List Nat
  | 0, _, found => found
  | _ + 1, [], found => found
  | fuel + 1, i :: queue, found =>
    if i ∈ found then search g fuel queue found else search g fuel (queue ++ g.joinedDefs i)
      (found ++ [i])

/-- The number of versions that all nodes join, which bounds what a search can still meet. -/
def joinCount (g : Graph) : Nat :=
  g.nodes.toList.foldr (fun n total => n.version.inputs.length + total) 0

/-- The definitions that reach some use under a key, directly or through merges, nearest first. -/
def transitiveDefs (g : Graph) (k : Key) : List Nat :=
  let start := (g.slot k).flatMap g.incoming
  g.search (start.length + g.joinCount + 1) start []

def nodesOf (g : Graph) (base : String) : List Nat :=
  (List.range g.nodes.size).filter fun i => g.nodes[i]?.any (·.base == base)

def keys (g : Graph) : List Key := (Std.ExtTreeSet.ofList (g.nodes.toList.map Node.key)).toList

end Graph

structure Stats where
  nodes : Nat
  edges : Nat
  defNodes : Nat
  useNodes : Nat
  phiNodes : Nat
  indexEdges : Nat
  phiEdges : Nat
  rejected : Nat
  deriving DecidableEq, Inhabited, Repr

def Graph.stats (g : Graph) : Stats where
  nodes := g.nodes.size
  edges := g.edges.size
  defNodes := g.nodes.toList.countP (·.role == .defines)
  useNodes := g.nodes.toList.countP (·.role == .uses)
  phiNodes := g.nodes.toList.countP fun n => n.isPhi && n.isDefinition
  indexEdges := g.edges.toList.countP (·.reason == .indexMatch)
  phiEdges := g.edges.toList.countP (·.reason == .phiReach)
  rejected := g.rejected.length

end ArrayFlow.DefUse
