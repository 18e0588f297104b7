import ArrayFlow.Procedure.Draft
import ArrayFlow.Failure
import ArrayFlow.Json.Parser

/-!
# Procedures in the interchange format

* `Statement.toJson`, `Procedure.toJson`   : the written forms;
* `Statement.ofJson?`, `Draft.ofJson?`     : the read forms; records may be objects or lists of
  their fields;
* `Procedure.parse` : the procedure that a text stands for.

Successor lists are read and predecessor lists are derived, so a procedure that is written and read
again keeps its predecessors only up to their order.
-/

namespace ArrayFlow

/-- Names of blocks and statements, and lines, are at most this large in the interchange format. -/
def Json.maxIndex : Nat := 4294967295

/-- Lists and objects are read up to this depth. -/
def Json.maxDepth : Nat := 127

def Json.index? (j : Json) : Option Nat := j.nat? Json.maxIndex

namespace Subscript

/-- An expression is an object of one field, the whole array a word. -/
def toJson : Subscript → Json
  | expr t => .obj [("expr", .str t)]
  | whole => .str "no_index"

/-- Reads a subscript. The whole array may also be an object of one field with nothing in it. -/
def ofJson? : Json → Option Subscript
  | .str s => if s = "no_index" then some whole else none
  | .obj [(k, .str t)] => if k = "expr" then some (expr t) else none
  | .obj [(k, .null)] => if k = "no_index" then some whole else none
  | .obj [(k, .obj [])] => if k = "no_index" then some whole else none
  | _ => none

end Subscript

namespace Access

def toJson (a : Access) : Json := .obj [("base", .str a.base), ("index", a.index.toJson)]

def ofJson? (j : Json) : Option Access :=
  match j.record? ["base", "index"] with
  | some [some base, some index] => do return ⟨← base.str?, ← Subscript.ofJson? index⟩
  | _ => none

end Access

namespace Action

/-- An action is a record with a tag. -/
def toJson : Action → Json
  | write a => .obj [("kind", .str "write"), ("access", a.toJson)]
  | read a => .obj [("kind", .str "read"), ("access", a.toJson)]
  | create b => .obj [("kind", .str "create"), ("base", .str b)]
  | rename s t => .obj [("kind", .str "rename"), ("from", .str s), ("to", .str t)]
  | other => .obj [("kind", .str "other")]

/-- The action of a tag, from the record of its other fields. -/
def ofTag? (tag : String) (fields : Json) : Option Action :=
  if tag = "write" then
    match fields.record? ["access"] with
    | some [some a] => (Access.ofJson? a).map write
    | _ => none
  else if tag = "read" then
    match fields.record? ["access"] with
    | some [some a] => (Access.ofJson? a).map read
    | _ => none
  else if tag = "create" then
    match fields.record? ["base"] with
    | some [some b] => b.str?.map create
    | _ => none
  else if tag = "rename" then
    match fields.record? ["from", "to"] with
    | some [some s, some t] => do return rename (← s.str?) (← t.str?)
    | _ => none
  else if tag = "other" then (fields.record? []).map fun _ => other
  else none

/-- Reads an action: an object with one tag anywhere, or a list that starts with it. The whole value
must be readable and not nested deeper than `room`. -/
def ofJson? (room : Nat) (j : Json) : Option Action :=
  if j.readable && j.depth ≤ room then
    match j with
    | .obj fs =>
      match fs.filter (·.1 == "kind") with
      | [(_, .str tag)] => ofTag? tag (.obj (fs.filter (·.1 != "kind")))
      | _ => none
    | .arr (.str tag :: rest) => ofTag? tag (.arr rest)
    | _ => none
  else none

end Action

namespace Statement

def toJson (s : Statement) : Json :=
  .obj [("id", .nat s.id.index), ("line", .nat s.line), ("text", .str s.text),
    ("kind", s.action.toJson)]

/-- Reads a statement that stands inside `outer` lists and objects. The line may be missing. -/
def ofJson? (outer : Nat) (j : Json) : Option Statement :=
  match j.record? ["id", "line", "text", "kind"] with
  | some [some id, line, some text, some kind] => do
    let line ← match line with
      | some l => l.index?
      | none => some 0
    return ⟨⟨← id.index?⟩, line, ← text.str?, ← Action.ofJson? (Json.maxDepth - outer - 1) kind⟩
  | _ => none

/-- The statement that a text stands for. -/
def parse? (text : String) : Option Statement := (Json.parse? text).bind (ofJson? 0)

end Statement

namespace LoopExit

def toJson (p : LoopExit) : Json :=
  .obj [("header", .nat p.header.index), ("exit", .nat p.exit.index)]

def ofJson? (j : Json) : Option LoopExit :=
  match j.record? ["header", "exit"] with
  | some [some h, some e] => do return ⟨⟨← h.index?⟩, ⟨← e.index?⟩⟩
  | _ => none

end LoopExit

/-- A list of blocks by name. -/
def Json.ofBlocks (bs : List BlockId) : Json := .arr (bs.map fun b => .nat b.index)

/-- A block is a record, with the predecessors last. -/
def Block.toJson (b : Block) : Json :=
  .obj [("id", .nat b.id.index), ("statements", .arr (b.statements.map Statement.toJson)),
    ("successors", .ofBlocks b.successors), ("predecessors", .ofBlocks b.predecessors)]

def Procedure.toJson (p : Procedure) : Json :=
  .obj [("procedure_id", .str p.name), ("entry", .nat p.entry.index),
    ("blocks", .arr (p.blocks.map Block.toJson)),
    ("loop_head_exits", .arr (p.loopExits.map LoopExit.toJson))]

namespace Draft

/-- A list field that may be missing. -/
def list? {α : Type} (item : Json → Option α) : Option Json → Option (List α)
  | some j => j.arr?.bind (·.mapM item)
  | none => some []

/-- Adds a block as it is read, its edges first. Statements stand inside four lists and objects. -/
def addJson? (d : Draft) (j : Json) : Option Draft :=
  match j.record? ["id", "statements", "successors"] with
  | some [some id, statements, successors] => do
    let id ← id.index?
    let statements ← list? (Statement.ofJson? 4) statements
    let successors ← list? Json.index? successors
    return (successors.foldl (fun d s => d.addEdge ⟨id⟩ ⟨s⟩) d).addBlock ⟨id⟩ statements
  | _ => none

/-- Reads the draft of a procedure. The entry may be missing or null, the loop exits missing. -/
def ofJson? (j : Json) : Option Draft :=
  match j.record? ["procedure_id", "entry", "blocks", "loop_head_exits"] with
  | some [some name, entry, some blocks, loops] => do
    let entry ← match entry with
      | none => some none
      | some .null => some none
      | some e => e.index?.map some
    let draft ← (← blocks.arr?).foldlM addJson? { name := ← name.str?, entry := entry.map BlockId.mk }
    let loops ← list? LoopExit.ofJson? loops
    return loops.foldl addLoopExit draft
  | _ => none

end Draft

/-- The procedure of a value of the interchange format: the value has to be a draft, and its parts
have to fit together. -/
def Procedure.ofJson (j : Json) : Except Failure Procedure :=
  match Draft.ofJson? j with
  | none => .error .unreadable
  | some d => d.build.mapError .analysis

/-- The procedure that a text stands for. -/
def Procedure.parse (text : String) : Except Failure Procedure :=
  match Json.parse? text with
  | none => .error .unreadable
  | some j => Procedure.ofJson j

end ArrayFlow
