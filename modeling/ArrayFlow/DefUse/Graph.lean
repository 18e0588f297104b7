import ArrayFlow.DefUse.Edge
import ArrayFlow.Fault

/-!
# The def-use graph

Nodes and edges are only ever added, and are named by their positions; a rename changes the key of a
node and leaves its edges alone.

* `Graph`          : nodes, edges and rejected pairs, in the order in which they came up;
* `Graph.slot`     : the nodes under a key, in the order in which they came under it;
* `Graph.resolve`  : the node under a key that a version comes from, or else the newest one;
* `Graph.addDef`, `addUse`, `addEdge`, `renameDef` : the ways a graph grows.

An edge joins a definition to a use when the definition is a merge or both have one subscript. There
is at most one edge between two sites.
-/

namespace ArrayFlow.DefUse

/-- Definitions and uses of arrays, and which definition reaches which use. -/
structure Graph where
  nodes : Array Node
  /-- Positions of the nodes in the order in which they came under their keys: a rename moves a node
  to the end. -/
  order : List Nat
  edges : Array Edge
  rejected : List Rejection
  keepsRejected : Bool
  deriving DecidableEq, Inhabited, Repr

namespace Graph

/-- The graph without nodes; rejected pairs are kept or dropped. -/
def empty (keepsRejected : Bool) : Graph := ⟨#[], [], #[], [], keepsRejected⟩

/-! ## looking up nodes -/

def hasKey (g : Graph) (k : Key) (i : Nat) : Bool := g.nodes[i]?.any (·.key == k)

/-- The positions of the nodes under a key, oldest first. -/
def slot (g : Graph) (k : Key) : List Nat := g.order.filter (g.hasKey k)

/-- Is the node at a position one of the role? -/
def isAt (g : Graph) (role : Role) (i : Nat) : Bool := g.nodes[i]?.any (·.role == role)

def carries (g : Graph) (v : Version) (i : Nat) : Bool := g.nodes[i]?.any (·.version.sameOrigin v)

/-- The newest node under a key that carries the version, or the newest one under the key if none
does. -/
def resolve (g : Graph) (k : Key) (v : Version) : Option Nat :=
  match (g.slot k).reverse.find? (g.carries v) with
  | some i => some i
  | none => (g.slot k).getLast?

/-! ## growing the graph -/

def push (g : Graph) (n : Node) : Graph :=
  { g with nodes := g.nodes.push n, order := g.order ++ [g.nodes.size] }

def addDef (g : Graph) (n : Node) : Nat × Graph := (g.nodes.size, g.push n)

/-- Why a definition reaches a use, if it does. -/
def reason? (d u : Node) : Option Reason :=
  if d.isPhi then some .phiReach else if d.index = u.index then some .indexMatch else none

def edgeAt? (g : Graph) (k : EdgeKey) : Option Nat := g.edges.findIdx? (·.key == k)

/-- Joins the nodes at two positions, if the one reaches the other. The position of the edge is
returned, the one that is there already if their sites are joined. -/
def link (g : Graph) (source target : Nat) : Option Nat × Graph :=
  match g.nodes[source]?, g.nodes[target]? with
  | some d, some u =>
    match reason? d u with
    | some r =>
      match g.edgeAt? (.between d u) with
      | some e => (some e, g)
      | none => (some g.edges.size,
          { g with edges := g.edges.push ⟨source, target, .between d u, r⟩ })
    | none =>
      if g.keepsRejected then
        (none, { g with rejected := g.rejected ++ [⟨d.key, u.key, d.index, u.index, u.stmt⟩] })
      else (none, g)
  | _, _ => (none, g)

/-- Adds a use and joins it to the definition of its version. The use is kept also when there is no
definition. -/
def addUse (g : Graph) (n : Node) : Except Fault (Option Nat) × Graph :=
  let g' := g.push n
  match g'.resolve n.key.opposite n.version with
  | some d =>
    let (e, g'') := g'.link d g.nodes.size
    (.ok e, g'')
  | none => (.error (.danglingUse n.base n.version.signature.text n.stmt n.block), g')

/-- Joins the newest node under a key to the node, under another one, that its version comes from,
if they are a use and a definition. -/
def addEdge (g : Graph) (source target : Key) : Option Nat × Graph :=
  match (g.slot target).getLast? with
  | none => (none, g)
  | some u =>
    match g.nodes[u]? with
    | none => (none, g)
    | some n =>
      match g.resolve source n.version with
      | none => (none, g)
      | some d => if g.isAt .defines d ∧ g.isAt .uses u then g.link d u else (none, g)

/-- Hands the definition of a version over to another name; nothing happens when there is none. -/
def renameDef (g : Graph) (oldBase : String) (oldVersion : Version) (newBase : String)
    (newVersion : Version) (s : Statement) : Bool × Graph :=
  match g.resolve ⟨oldBase, oldVersion.signature, .defines⟩ oldVersion with
  | some i =>
    (true, { g with
      nodes := g.nodes.modify i (·.rebind s newBase newVersion)
      order := g.order.erase i ++ [i] })
  | none => (false, g)

end Graph

end ArrayFlow.DefUse
