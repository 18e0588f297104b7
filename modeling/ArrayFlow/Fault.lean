import ArrayFlow.Id

/-!
# What can go wrong

* `Defect`  : why a control-flow graph is refused;
* `Fault`   : why an analysis stops, or which part of it was given up;
* `Fault.message`, `Defect.message` : the wording;
* `Fault.isLoopLocal` : the fault ends the work on one loop and nothing else;
* `Fault.isFatal`     : the fault leaves no result.
-/

namespace ArrayFlow

/-- A reason to refuse a control-flow graph. -/
inductive Defect where
  | noBlocks (procedure : String)
  | duplicateBlock (block : BlockId)
  | duplicateStatement (stmt : StmtId)
  | unknownEdge (source target : BlockId)
  | headlessLoopBlock (block : BlockId)
  /-- A defect found elsewhere and reported in words. -/
  | reported (reason : String)
  deriving DecidableEq, Inhabited, Repr

/-- The wording of a defect. -/
def Defect.message : Defect → String
  | noBlocks p => "procedure '" ++ p ++ "' has no blocks"
  | duplicateBlock b => "duplicate block " ++ b.text
  | duplicateStatement s => "duplicate statement id " ++ s.text
  | unknownEdge s t => "edge " ++ s.text ++ " -> " ++ t.text ++ " names an unknown block"
  | headlessLoopBlock b => "loop block " ++ b.text ++ " is unknown or has no head statement"
  | reported r => r

/-- A failure of the analysis. -/
inductive Fault where
  | unknownArray (base : String) (block : BlockId)
  | blockNotProcessed (block : BlockId)
  /-- A read of `base` at a version, given as text, that no definition carries. -/
  | danglingUse (base version : String) (stmt : Option StmtId) (block : BlockId)
  | loopReentry (header block : BlockId)
  | loopLimit (header : BlockId) (limit : Nat)
  | blockNotFound (block : BlockId)
  | invalidProcedure (defect : Defect)
  deriving DecidableEq, Inhabited, Repr

namespace Fault

/-- The wording of a fault. -/
def message : Fault → String
  | unknownArray a b => "Unknown array '" ++ a ++ "' in block " ++ b.text ++
      ": no prior version to increment"
  | blockNotProcessed b =>
    "Block " ++ b.text ++ " has not been processed; its exposed versions are unavailable"
  | danglingUse a v _ b =>
    "Dangling use of '" ++ a ++ "' at version " ++ v ++ " in block " ++ b.text ++
      ": no matching definition"
  | loopReentry h b => "Block " ++ b.text ++ " re-entered by the worklist of loop " ++ h.text
  | loopLimit h n => "Worklist of loop " ++ h.text ++ " exceeded " ++ n.repr ++ " iterations"
  | blockNotFound b => "Block not found: " ++ b.text
  | invalidProcedure d => "Invalid CFG: " ++ d.message

/-- Does the fault end the work on one loop only? -/
def isLoopLocal : Fault → Bool
  | loopReentry .. => true
  | loopLimit .. => true
  | _ => false

/-- Is there no way to go on after the fault? A dangling use can be noted and passed over. -/
def isFatal : Fault → Bool
  | danglingUse .. => false
  | f => !f.isLoopLocal

end Fault

end ArrayFlow
