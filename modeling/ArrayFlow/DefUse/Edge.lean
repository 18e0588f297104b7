import ArrayFlow.DefUse.Node

/-!
# Edges of the def-use graph

* `Site`      : the statement of a node, or the text of a merge;
* `EdgeKey`   : the sites that an edge joins, which identify it;
* `Reason`    : why a definition reaches a use;
* `Edge`      : two nodes, by position, joined for a reason;
* `Rejection` : a definition and a use of one version at different subscripts.
-/

namespace ArrayFlow.DefUse

/-- Where a node stands in the source. -/
inductive Site where
  | stmt (id : StmtId)
  | synthetic (text : String)
  deriving DecidableEq, Inhabited, Repr

namespace Site

def of (n : Node) : Site :=
  match n.stmt with
  | some s => .stmt s
  | none => .synthetic n.text

/-- Statements come before merges. -/
def rank : Site → Nat
  | stmt _ => 0
  | synthetic _ => 1

/-- The number of a statement, zero for a merge. -/
def index : Site → Nat
  | stmt s => s.index
  | synthetic _ => 0

def text : Site → String
  | stmt _ => ""
  | synthetic t => t

/-- Statements by number, then merges by text. -/
protected def compare : Site → Site → Ordering :=
  compareLex (compareOn rank) (compareLex (compareOn index) (compareOn text))

instance : Ord Site := ⟨Site.compare⟩

instance : Std.TransOrd Site :=
  inferInstanceAs (Std.TransCmp
    (compareLex (compareOn rank) (compareLex (compareOn index) (compareOn text))))

instance : Std.LawfulEqOrd Site where
  eq_of_compare {a b} h := by
    obtain ⟨hr, h⟩ := eq_of_compareLex (show Site.compare a b = .eq from h)
    obtain ⟨hi, ht⟩ := eq_of_compareLex h
    have hr := eq_of_compareOn hr
    have hi := eq_of_compareOn hi
    have ht := eq_of_compareOn ht
    cases a with
    | stmt s =>
      cases b with
      | stmt t => cases s; cases t; simp_all [index]
      | synthetic t => simp [rank] at hr
    | synthetic s =>
      cases b with
      | stmt t => simp [rank] at hr
      | synthetic t => simp_all [text]

end Site

structure EdgeKey where
  source : Site
  target : Site
  deriving DecidableEq, Inhabited, Repr

namespace EdgeKey

def between (d u : Node) : EdgeKey := ⟨.of d, .of u⟩

/-- Edge keys are ordered by source, then target. -/
protected def compare : EdgeKey → EdgeKey → Ordering :=
  compareLex (compareOn source) (compareOn target)

instance : Ord EdgeKey := ⟨EdgeKey.compare⟩

instance : Std.TransOrd EdgeKey :=
  inferInstanceAs (Std.TransCmp (compareLex (compareOn source) (compareOn target)))

instance : Std.LawfulEqOrd EdgeKey where
  eq_of_compare {a b} h := by
    obtain ⟨hs, ht⟩ := eq_of_compareLex (show EdgeKey.compare a b = .eq from h)
    have hs := eq_of_compareOn hs
    have ht := eq_of_compareOn ht
    cases a; cases b; simp_all

end EdgeKey

/-- Why a definition reaches a use. -/
inductive Reason where
  /-- Both have one subscript. -/
  | indexMatch
  /-- The definition is a merge, which reaches every use of its version. -/
  | phiReach
  deriving DecidableEq, Inhabited, Repr

/-- A definition that reaches a use; both are positions of nodes. -/
structure Edge where
  source : Nat
  target : Nat
  key : EdgeKey
  reason : Reason
  deriving DecidableEq, Inhabited, Repr

/-- A definition and a use of one version that were kept apart by their subscripts. -/
structure Rejection where
  source : Key
  target : Key
  sourceIndex : Subscript
  targetIndex : Subscript
  targetStmt : Option StmtId
  deriving DecidableEq, Inhabited, Repr

end ArrayFlow.DefUse
