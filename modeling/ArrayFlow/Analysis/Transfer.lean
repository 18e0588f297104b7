import ArrayFlow.Analysis.Facts

/-!
# What statements do

A statement takes the bindings before it, and the facts found so far, to the bindings and facts
after it.

* `Transfer.write`, `read`, `create`, `rename` : the effect of each action;
* `Transfer.statement`  : the effect of a statement;
* `Transfer.statements` : the effect of statements in a row;
* `Transfer.process`    : the effect of a block, which leaves its bindings exposed.
-/

namespace ArrayFlow.Transfer

variable (settings : Settings) (block : BlockId)

/-- A write makes the next version of its array, the first one if the array is not known. -/
def write (stmt : Statement) (access : Access) (t : Bindings) (f : Facts) :
    Except Fault (Bindings × Facts) := do
  let (v, t) ←
    if t.contains access.base then t.increment access.base block stmt.id stmt.line
    else .ok (t.firstWrite access.base block stmt.id stmt.line)
  let f := f.record access.base (.of v .write (some stmt.id))
  return (t, f.define (.ofStatement .defines stmt access.base v access.index block))

/-- A read uses the version that its array is at; without one it dangles. -/
def read (stmt : Statement) (access : Access) (t : Bindings) (f : Facts) :
    Except Fault (Bindings × Facts) :=
  match t.markRead access.base with
  | none => do
    let f ← f.recover settings (.danglingUse access.base "none" (some stmt.id) block)
    return (t, f)
  | some (v, t) =>
    match f.graph.addUse (.ofStatement .uses stmt access.base v access.index block) with
    | (.ok _, g) => .ok (t, { f with graph := g })
    | (.error fault, g) => do
      let f ← Facts.recover settings { f with graph := g } fault
      return (t, f)

/-- A creation makes the first version of an array, whatever the name was bound to. -/
def create (stmt : Statement) (base : String) (t : Bindings) (f : Facts) : Bindings × Facts :=
  let (v, t) := t.create base block stmt.id stmt.line
  let f := f.record base (.of v .create (some stmt.id))
  let f := { f with creations := f.creations.insert stmt.id }
  (t, f.define (.wholeArray stmt base v block))

/-- A rename moves a version, its definition and its history to another name; of an unknown array it
does nothing. -/
def rename (stmt : Statement) (source target : String) (t : Bindings) (f : Facts) :
    Except Fault (Bindings × Facts) :=
  match t[source]? with
  | none => .ok (t, f)
  | some old => do
    let (v, t) ← t.rename source target block
    let f := match f.graph.renameDef source old target v stmt with
      | (true, g) => { f with graph := g }
      | (false, _) => f.define (.wholeArray stmt target v block)
    return (t, { f with history := f.history.inherit source target (.of v .rename (some stmt.id)) })

def statement (t : Bindings) (f : Facts) (stmt : Statement) : Except Fault (Bindings × Facts) :=
  match stmt.action with
  | .write access => write block stmt access t f
  | .read access => read settings block stmt access t f
  | .create base => .ok (create block stmt base t f)
  | .rename source target => rename block stmt source target t f
  | .other => .ok (t, f)

def statements (stmts : List Statement) (t : Bindings) (f : Facts) :
    Except Fault (Bindings × Facts) :=
  stmts.foldlM (fun (t, f) stmt => statement settings block t f stmt) (t, f)

/-- The effect of a block that is entered with some bindings. -/
def process (p : Procedure) (t : Bindings) (f : Facts) : Except Fault Facts := do
  let (t, f) ← statements settings block (p.statementsOf block) t f
  return f.expose block t

end ArrayFlow.Transfer
