import ArrayFlow.Version
import ArrayFlow.Fault

/-!
# Bindings of array names

The live versions at a point of a procedure: a finite map from array names to versions, ordered by
name. A block works on a copy of its own, so what one branch binds no sibling sees.

* `Bindings`          : the map; equal bindings bind the same names to the same versions;
* `Bindings.create`, `firstWrite`, `increment`, `markRead`, `rename` : what statements do to it;
* `Bindings.names`    : the bound names in order.
-/

namespace ArrayFlow

/-- The version that each live array is at. -/
abbrev Bindings := Std.ExtTreeMap String Version

namespace Bindings

def names (t : Bindings) : List String := t.keys

/-- Binds a name to the version of a creation, whatever it was bound to. -/
def create (t : Bindings) (base : String) (block : BlockId) (stmt : StmtId) (line : Nat) :
    Version × Bindings :=
  let v := Version.created block stmt line
  (v, t.insert base v)

/-- Binds a name that is met for the first time in a write. -/
def firstWrite (t : Bindings) (base : String) (block : BlockId) (stmt : StmtId) (line : Nat) :
    Version × Bindings :=
  let v := Version.firstWrite block stmt line
  (v, t.insert base v)

/-- Moves a bound name to its next version. -/
def increment (t : Bindings) (base : String) (block : BlockId) (stmt : StmtId) (line : Nat) :
    Except Fault (Version × Bindings) :=
  match t[base]? with
  | some v => .ok (v.next block stmt line, t.insert base (v.next block stmt line))
  | none => .error (.unknownArray base block)

/-- Notes that the version of a name was read. -/
def markRead (t : Bindings) (base : String) : Option (Version × Bindings) :=
  match t[base]? with
  | some v => some (v.markRead, t.insert base v.markRead)
  | none => none

/-- Moves the version of one name to another; the old name becomes free. -/
def rename (t : Bindings) (source target : String) (block : BlockId) :
    Except Fault (Version × Bindings) :=
  match t[source]? with
  | some v => .ok (v, (t.erase source).insert target v)
  | none => .error (.unknownArray source block)

def agrees (t u : Bindings) : Bool := t.toList == u.toList

end Bindings

end ArrayFlow
