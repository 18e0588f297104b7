import ArrayFlow.Procedure.Basic
import ArrayFlow.Fault

/-!
# Procedures in the making

A draft collects blocks, edges and loop declarations in any order; `Draft.build` checks them and
derives the neighbour lists.

* `LoopDecl`    : a loop exit declared by statements or by blocks;
* `Draft`       : what has been declared so far;
* `Draft.withEntry`, `addBlock`, `addEdge`, `addLoopExit`, `addLoopBlocks` : the declarations;
* `Draft.build` : the procedure, or the first defect.
-/

namespace ArrayFlow

/-- A declared loop exit. -/
inductive LoopDecl where
  | stmts (pair : LoopExit)
  /-- The blocks stand for their head statements. -/
  | blocks (header exit : BlockId)
  deriving DecidableEq, Inhabited, Repr

/-- A procedure in the making. -/
structure Draft where
  name : String
  entry : Option BlockId := none
  blocks : List (BlockId × List Statement) := []
  edges : List (BlockId × BlockId) := []
  loops : List LoopDecl := []
  deriving DecidableEq, Inhabited, Repr

namespace Draft

/-! ## declarations -/

/-- Sets the entry; the last one counts. -/
def withEntry (d : Draft) (b : BlockId) : Draft := { d with entry := some b }

def addBlock (d : Draft) (b : BlockId) (statements : List Statement) : Draft :=
  { d with blocks := d.blocks ++ [(b, statements)] }

/-- Adds an edge; neighbour lists follow the order of the edges. -/
def addEdge (d : Draft) (source target : BlockId) : Draft :=
  { d with edges := d.edges ++ [(source, target)] }

def addLoopExit (d : Draft) (pair : LoopExit) : Draft :=
  { d with loops := d.loops ++ [.stmts pair] }

def addLoopBlocks (d : Draft) (header exit : BlockId) : Draft :=
  { d with loops := d.loops ++ [.blocks header exit] }

/-! ## the finished procedure -/

/-- The first block name, or statement name, that was used before. `blocks` and `stmts` are the
names in use. -/
def repeated? (blocks : List BlockId) (stmts : List StmtId) :
    List (BlockId × List Statement) → Option Defect
  | [] => none
  | (b, body) :: rest =>
    if b ∈ blocks then some (.duplicateBlock b)
    else
      match repeatedStmt? stmts body with
      | .error s => some (.duplicateStatement s)
      | .ok stmts => repeated? (b :: blocks) stmts rest
where
  /-- The names in use after a block, or the first of its statements that repeats one. -/
  repeatedStmt? (stmts : List StmtId) : List Statement → Except StmtId (List StmtId)
    | [] => .ok stmts
    | s :: rest => if s.id ∈ stmts then .error s.id else repeatedStmt? (s.id :: stmts) rest

/-- The names of the declared blocks. -/
def blockIds (d : Draft) : List BlockId := d.blocks.map (·.1)

/-- Makes the ends of an edge neighbours, unless the target is a successor already. -/
def joinEdge (blocks : List Block) (e : BlockId × BlockId) : List Block :=
  if blocks.any fun k => k.id = e.1 && e.2 ∈ k.successors then blocks
  else blocks.map fun k => { k with
    successors := if k.id = e.1 then k.successors ++ [e.2] else k.successors
    predecessors := if k.id = e.2 then k.predecessors ++ [e.1] else k.predecessors }

/-- The declared blocks with their neighbours, edge by edge. -/
def joined (d : Draft) : List Block :=
  d.edges.foldl joinEdge (d.blocks.map fun (b, statements) => ⟨b, statements, [], []⟩)

def head (d : Draft) (b : BlockId) : Except Defect StmtId :=
  match (d.blocks.lookup b).bind (·.head?) with
  | some s => .ok s.id
  | none => .error (.headlessLoopBlock b)

def resolve (d : Draft) : LoopDecl → Except Defect LoopExit
  | .stmts pair => .ok pair
  | .blocks header exit => do return ⟨← d.head header, ← d.head exit⟩

/-- The procedure of a draft. Checked in turn: that there are blocks, that no name is used twice,
that the entry exists, that edges join known blocks, and that loops declared by blocks have head
statements. -/
def build (d : Draft) : Except Fault Procedure :=
  match d.blocks with
  | [] => .error (.invalidProcedure (.noBlocks d.name))
  | (first, _) :: _ =>
    match repeated? [] [] d.blocks with
    | some defect => .error (.invalidProcedure defect)
    | none =>
      let entry := d.entry.getD first
      if entry ∉ d.blockIds then .error (.blockNotFound entry)
      else
        match d.edges.find? fun e => e.1 ∉ d.blockIds || e.2 ∉ d.blockIds with
        | some e => .error (.invalidProcedure (.unknownEdge e.1 e.2))
        | none =>
          match d.loops.mapM d.resolve with
          | .error defect => .error (.invalidProcedure defect)
          | .ok pairs =>
            .ok {
              name := d.name
              entry := entry
              blocks := d.joined
              loopExits := pairs.eraseDups }

end Draft

end ArrayFlow
