import ArrayFlow.Bindings

/-!
# Exposed bindings

The bindings at the end of every processed block, ordered by block. A block is *ready* once it has
some.

* `Exposed`            : the map from blocks to bindings;
* `Exposed.get`        : the bindings of a block, a fault if it was not processed;
* `Exposed.snapshot`   : sets the bindings of a block;
* `Exposed.isReady`, `allReady`, `readyOf` : which blocks were processed.
-/

namespace ArrayFlow

/-- The bindings that each processed block leaves. -/
abbrev Exposed := Std.ExtTreeMap BlockId Bindings

namespace Exposed

def snapshot (x : Exposed) (b : BlockId) (t : Bindings) : Exposed := x.insert b t

def get (x : Exposed) (b : BlockId) : Except Fault Bindings :=
  match x[b]? with
  | some t => .ok t
  | none => .error (.blockNotProcessed b)

def isReady (x : Exposed) (b : BlockId) : Bool := x.contains b

def allReady (x : Exposed) (bs : List BlockId) : Bool := bs.all x.isReady

def readyOf (x : Exposed) (bs : List BlockId) : List BlockId := bs.filter x.isReady

end Exposed

end ArrayFlow
