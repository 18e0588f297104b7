import ArrayFlow.Version

/-!
# History of versions

For each array name the chain of the versions that were made for it, in the order in which they were
made.

* `Record`          : a version with the way it came about;
* `History`         : the chains, ordered by name;
* `History.record`  : appends to a chain;
* `History.inherit` : starts a chain as a copy of another one;
* `History.chain`   : the chain of a name, empty for an unknown one.
-/

namespace ArrayFlow

/-- How a version came about. -/
inductive Origin where
  | create
  | write
  | phi
  | rename
  deriving DecidableEq, Inhabited, Repr

/-- A version in a chain. -/
structure Record where
  version : Version
  origin : Origin
  block : BlockId
  stmt : Option StmtId
  line : Nat
  deriving DecidableEq, Inhabited, Repr

/-- The record of a version, placed where the version was made. -/
def Record.of (v : Version) (origin : Origin) (stmt : Option StmtId) : Record :=
  ⟨v, origin, v.block, stmt, v.line⟩

/-- The chain of each array name. -/
abbrev History := Std.ExtTreeMap String (List Record)

namespace History

def chain (h : History) (base : String) : List Record := h[base]?.getD []

def record (h : History) (base : String) (r : Record) : History :=
  h.insert base (h.chain base ++ [r])

/-- Makes the chain of `target` the chain of `source` followed by a record; what `target` had before
is dropped. -/
def inherit (h : History) (source target : String) (r : Record) : History :=
  h.insert target (h.chain source ++ [r])

def bases (h : History) : List String := h.keys

def total (h : History) : Nat := h.values.foldr (fun chain n => chain.length + n) 0

end History

end ArrayFlow
