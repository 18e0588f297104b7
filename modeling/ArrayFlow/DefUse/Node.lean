import ArrayFlow.Version
import ArrayFlow.Text.Identifier

/-!
# Nodes of the def-use graph

A node is one definition or one use of an array at a version.

* `Role`  : definition or use;
* `Key`   : array name, signature and role, which is how a use finds its definition;
* `Node`  : a definition or use with its place in the source;
* `Node.ofStatement`, `Node.wholeArray`, `Node.ofPhi` : the nodes of statements and merges;
* `Node.rebind` : a definition taken over by a rename.
-/

namespace ArrayFlow.DefUse

/-- What a node does with its array. -/
inductive Role where
  | defines
  | uses
  deriving DecidableEq, Inhabited, Repr

namespace Role

def opposite : Role → Role
  | defines => uses
  | uses => defines

def text : Role → String
  | defines => "DEF"
  | uses => "USE"

def rank : Role → Nat
  | defines => 0
  | uses => 1

theorem opposite_opposite (r : Role) : r.opposite.opposite = r := by cases r <;> rfl

theorem rank_injective {a b : Role} (h : a.rank = b.rank) :
    a = b := by cases a <;> cases b <;> simp_all [rank]

instance : Ord Role := ⟨compareOn rank⟩

instance : Std.TransOrd Role := inferInstanceAs (Std.TransCmp (compareOn rank))

instance : Std.LawfulEqOrd Role where
  eq_of_compare h := rank_injective (eq_of_compareOn h)

end Role

/-- What nodes are looked up by. Several nodes may share a key. -/
structure Key where
  base : String
  signature : Signature
  role : Role
  deriving DecidableEq, Inhabited, Repr

namespace Key

def opposite (k : Key) : Key := { k with role := k.role.opposite }

/-- Keys are written `a_1_DEF`, `a_1_2_USE`. -/
def text (k : Key) : String := k.base ++ "_" ++ k.signature.text ++ "_" ++ k.role.text

/-- Keys are ordered by name, then signature, then role. -/
protected def compare : Key → Key → Ordering :=
  compareLex (compareOn base) (compareLex (compareOn signature) (compareOn role))

theorem opposite_opposite (k : Key) : k.opposite.opposite = k := by
  simp [opposite, Role.opposite_opposite]

instance : Ord Key := ⟨Key.compare⟩

instance : Std.TransOrd Key :=
  inferInstanceAs (Std.TransCmp
    (compareLex (compareOn base) (compareLex (compareOn signature) (compareOn role))))

instance : Std.LawfulEqOrd Key where
  eq_of_compare {a b} h := by
    obtain ⟨hb, h⟩ := eq_of_compareLex (show Key.compare a b = .eq from h)
    obtain ⟨hs, hr⟩ := eq_of_compareLex h
    have hb := eq_of_compareOn hb
    have hs := eq_of_compareOn hs
    have hr := eq_of_compareOn hr
    cases a; cases b; simp_all

end Key

/-- A definition or use of an array. -/
structure Node where
  role : Role
  base : String
  version : Version
  index : Subscript
  block : BlockId
  /-- The statement of the node; a merge has none. -/
  stmt : Option StmtId
  /-- The text of the statement, or of the merge. -/
  text : String
  /-- The text in which the array carries its version. -/
  augmented : String
  line : Nat
  /-- Does the node define the whole array, by creation or rename? -/
  isBase : Bool
  deriving DecidableEq, Inhabited, Repr

namespace Node

/-- The text of a statement in which an array carries its version. -/
def augment (s : Statement) (base : String) (v : Version) : String :=
  Text.replaceIdentifier s.text base (v.name base)

def ofStatement (role : Role) (s : Statement) (base : String) (v : Version) (index : Subscript)
    (block : BlockId) :
    Node where
  role := role
  base := base
  version := v
  index := index
  block := block
  stmt := some s.id
  text := s.text
  augmented := augment s base v
  line := s.line
  isBase := false

def wholeArray (s : Statement) (base : String) (v : Version) (block : BlockId) : Node :=
  { ofStatement .defines s base v .whole block with isBase := true }

/-- The definition of a merged version, which has no statement of its own. -/
def ofPhi (base : String) (v : Version) (block : BlockId) : Node where
  role := .defines
  base := base
  version := v
  index := .whole
  block := block
  stmt := none
  text := (v.phiText? base).getD ""
  augmented := (v.phiText? base).getD ""
  line := v.line
  isBase := false

def key (n : Node) : Key := ⟨n.base, n.version.signature, n.role⟩

def isPhi (n : Node) : Bool := n.version.isPhi

def isDefinition (n : Node) : Bool := n.role == .defines

/-- The node taken over by a rename: name, version and statement change, subscript and block
stay. -/
def rebind (n : Node) (s : Statement) (base : String) (v : Version) : Node :=
  { n with
    base := base
    version := v
    stmt := some s.id
    text := s.text
    augmented := augment s base v
    line := s.line }

end Node

end ArrayFlow.DefUse
