import ArrayFlow.Id

/-!
# Statements

A statement is seen through the one thing it does to arrays.

* `Subscript` : the place inside an array, an expression compared as text, or the array as a whole;
* `Access`    : an array name with a subscript;
* `Action`    : write, read, create, rename, or nothing that concerns arrays;
* `Statement` : an action with its name, source line and source text.
-/

namespace ArrayFlow

/-- The place of an access inside its array. -/
inductive Subscript where
  | expr (text : String)
  | whole
  deriving DecidableEq, Inhabited, Repr

namespace Subscript

/-- The text of a subscript; an access to the whole array is shown by a fixed word. -/
def text : Subscript → String
  | expr t => t
  | whole => "NEW_ARRAY"

def isExpr : Subscript → Bool
  | expr _ => true
  | whole => false

end Subscript

/-- An element access `base[subscript]`. -/
structure Access where
  base : String
  index : Subscript
  deriving DecidableEq, Inhabited, Repr

/-- What a statement does to arrays. -/
inductive Action where
  | write (access : Access)
  | read (access : Access)
  | create (base : String)
  /-- `target` becomes the name of the array that `source` names. -/
  | rename (source target : String)
  | other
  deriving DecidableEq, Inhabited, Repr

namespace Action

/-- The array a statement is about; a rename is about its target. -/
def base? : Action → Option String
  | write a => some a.base
  | read a => some a.base
  | create b => some b
  | rename _ t => some t
  | other => none

def subscript? : Action → Option Subscript
  | write a => some a.index
  | read a => some a.index
  | _ => none

end Action

/-- A statement of a basic block. -/
structure Statement where
  id : StmtId
  line : Nat
  text : String
  action : Action
  deriving DecidableEq, Inhabited, Repr

end ArrayFlow
