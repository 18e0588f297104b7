import ArrayFlow.Fault

/-!
# Findings that do not stop the analysis

* `Diagnostic`          : something noteworthy, with the place it concerns;
* `Diagnostic.ofFault`  : a fault that the analysis recovered from;
* `FalsePhi`            : an array that only some of the paths into a block carry.
-/

namespace ArrayFlow

inductive DiagnosticKind where
  | danglingUse
  | loopReentry
  | loopLimit
  | unreachableMerge
  | other
  deriving DecidableEq, Inhabited, Repr

structure Diagnostic where
  kind : DiagnosticKind
  block : Option BlockId
  stmt : Option StmtId
  message : String
  deriving DecidableEq, Inhabited, Repr

namespace Diagnostic

/-- The finding that a fault leaves when the analysis goes on. -/
def ofFault (f : Fault) : Diagnostic :=
  match f with
  | .danglingUse _ _ s b => ⟨.danglingUse, some b, s, f.message⟩
  | .loopReentry _ b => ⟨.loopReentry, some b, none, f.message⟩
  | .loopLimit h _ => ⟨.loopLimit, some h, none, f.message⟩
  | .unknownArray _ b => ⟨.other, some b, none, f.message⟩
  | .blockNotProcessed b => ⟨.other, some b, none, f.message⟩
  | .blockNotFound b => ⟨.other, some b, none, f.message⟩
  | .invalidProcedure _ => ⟨.other, none, none, f.message⟩

/-- The finding that no predecessor of a merge was ever processed. -/
def unreachableMerge (b : BlockId) : Diagnostic :=
  ⟨.unreachableMerge, some b, none, "merge block " ++ b.text ++ " has no processed predecessor"⟩

end Diagnostic

/-- At the start of `block` the array is carried by some predecessors, the contributors, and not by
all. -/
structure FalsePhi where
  block : BlockId
  base : String
  contributors : List BlockId
  deriving DecidableEq, Inhabited, Repr

end ArrayFlow
