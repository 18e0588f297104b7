import ArrayFlow.Statement

/-!
# Procedures

A procedure is its control-flow graph, with the loops declared by their head statements.

* `Block`         : a block with its statements and the lists of its neighbours;
* `LoopExit`      : "the loop whose header starts with `header` is left to the block that starts
  with `exit`";
* `Procedure`     : the blocks, the entry and the declared loop exits;
* `statementsOf`, `predecessors`, `successors` : what is known of a block; nothing for an unknown
  one;
* `isLoopHeader`, `isLoopExit` : what the declarations say of a block, of a pair of blocks.

Nothing here requires the neighbour lists to agree with each other, or block names to be distinct: a
name belongs to the first block that carries it.
-/

namespace ArrayFlow

/-- A basic block and its neighbours in the control-flow graph. -/
structure Block where
  id : BlockId
  statements : List Statement
  successors : List BlockId
  predecessors : List BlockId
  deriving DecidableEq, Inhabited, Repr

/-- A declared loop exit, by the head statements of the loop header and of the exit block. -/
structure LoopExit where
  header : StmtId
  exit : StmtId
  deriving DecidableEq, Inhabited, Repr

/-- A procedure to analyse. -/
structure Procedure where
  name : String
  entry : BlockId
  blocks : List Block
  loopExits : List LoopExit
  deriving DecidableEq, Inhabited, Repr

namespace Procedure

/-- The block of a name: the first one that carries it. -/
def block? (p : Procedure) (b : BlockId) : Option Block := p.blocks.find? (·.id = b)

def blockIds (p : Procedure) : List BlockId := p.blocks.map (·.id)

def contains (p : Procedure) (b : BlockId) : Bool := (p.block? b).isSome

def statementsOf (p : Procedure) (b : BlockId) : List Statement :=
  ((p.block? b).map (·.statements)).getD []

/-- The blocks that control comes from. -/
def predecessors (p : Procedure) (b : BlockId) : List BlockId :=
  ((p.block? b).map (·.predecessors)).getD []

/-- The blocks that control goes to. -/
def successors (p : Procedure) (b : BlockId) : List BlockId :=
  ((p.block? b).map (·.successors)).getD []

def statementCount (p : Procedure) : Nat := p.blocks.foldr (fun b n => b.statements.length + n) 0

/-- The first statement of a block, which stands for the block in loop declarations. -/
def head? (p : Procedure) (b : BlockId) : Option StmtId := (p.statementsOf b).head?.map (·.id)

/-- The line of the first statement of a block, where versions merged at the block are placed. -/
def headLine (p : Procedure) (b : BlockId) : Nat := ((p.statementsOf b).head?.map (·.line)).getD 0

/-- The head statements of the blocks that the loop of `b` is left to. -/
def loopExitsOf (p : Procedure) (b : BlockId) : List StmtId :=
  match p.head? b with
  | some h => (p.loopExits.filter (·.header = h)).map (·.exit)
  | none => []

/-- A block is a loop header when some loop exit is declared for its head statement. -/
def isLoopHeader (p : Procedure) (b : BlockId) : Bool := !(p.loopExitsOf b).isEmpty

/-- Does the step from `header` to `target` leave the loop of `header`? -/
def isLoopExit (p : Procedure) (header target : BlockId) : Bool :=
  match p.head? target with
  | some t => (p.loopExitsOf header).contains t
  | none => false

end Procedure

end ArrayFlow
