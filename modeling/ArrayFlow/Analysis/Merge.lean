import ArrayFlow.Analysis.Facts

/-!
# Where control flow merges

The bindings at the start of a block, from those that its predecessors leave. An array that all
predecessors carry gets a merged version; one that only some carry is not bound, and is noted as a
false phi.

* `Merge.names` : the names that some predecessor binds, in order;
* `Merge.name`  : what becomes of one of them;
* `Merge.predecessors` : the bindings at the start of a block.
-/

namespace ArrayFlow.Merge

def names (tables : List Bindings) : List String :=
  (Std.ExtTreeSet.ofList (tables.flatMap Bindings.names)).toList

def contributors (preds : List BlockId) (tables : List Bindings) (base : String) : List BlockId :=
  ((preds.zip tables).filter fun (_, t) => t.contains base).map (·.1)

/-- The version that stands for inputs which are one version: the first, read if any of them was. -/
def shared (first : Version) (inputs : List Version) : Version :=
  if inputs.any Version.isRead then first.markRead else first

/-- What becomes of a name that is bound in some of the tables. -/
def name (s : Settings) (block : BlockId) (line : Nat) (preds : List BlockId)
    (tables : List Bindings) (t : Bindings) (f : Facts) (base : String) : Bindings × Facts :=
  let inputs := tables.filterMap fun u => u[base]?
  if inputs.length < tables.length then
    (t, { f with falsePhis := f.falsePhis ++ [⟨block, base, contributors preds tables base⟩] })
  else if s.pruneTrivial && Version.trivialMerge inputs then
    match inputs with
    | v :: _ => (t.insert base (shared v inputs), f)
    | [] => (t, f)
  else
    match Version.phi? inputs block line with
    | some v => (t.insert base v, (f.record base (.of v .phi none)).define (.ofPhi base v block))
    | none => (t, f)

/-- The bindings at the start of a block. A sole predecessor is copied, and without any there are
none. -/
def predecessors (s : Settings) (f : Facts) (block : BlockId) (line : Nat) (preds : List BlockId) :
    Except Fault (Bindings × Facts) := do
  let tables ← preds.mapM f.exposed.get
  match tables with
  | [] => return (∅, f)
  | [t] => return (t, f)
  | tables => return (names tables).foldl (fun (t, f) base =>
    name s block line preds tables t f base) (∅, f)

end ArrayFlow.Merge
