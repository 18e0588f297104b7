import ArrayFlow.Order

/-!
# Names of blocks and statements

* `BlockId`, `StmtId` : numbers with a type of their own, so that a block is never taken for a
  statement;
* `BlockId.text`, `StmtId.text` : how they are written in messages (`B7`, `s7`);
* both are ordered by number, and the order decides equality, so they are keys of ordered maps and
  sets.
-/

namespace ArrayFlow

/-- The name of a basic block inside its procedure. -/
structure BlockId where
  index : Nat
  deriving DecidableEq, Inhabited, Repr

/-- The name of a statement inside its procedure. -/
structure StmtId where
  index : Nat
  deriving DecidableEq, Inhabited, Repr

/-- Blocks are written `B0`, `B1`, … in messages. -/
def BlockId.text (b : BlockId) : String := "B" ++ b.index.repr

/-- Statements are written `s0`, `s1`, … in messages. -/
def StmtId.text (s : StmtId) : String := "s" ++ s.index.repr

instance : Ord BlockId := ⟨compareOn BlockId.index⟩

instance : Std.TransOrd BlockId := inferInstanceAs (Std.TransCmp (compareOn BlockId.index))

instance : Std.LawfulEqOrd BlockId where
  eq_of_compare {a b} h := by
    have hi : a.index = b.index := eq_of_compareOn h
    cases a; cases b; simp_all

instance : Ord StmtId := ⟨compareOn StmtId.index⟩

instance : Std.TransOrd StmtId := inferInstanceAs (Std.TransCmp (compareOn StmtId.index))

instance : Std.LawfulEqOrd StmtId where
  eq_of_compare {a b} h := by
    have hi : a.index = b.index := eq_of_compareOn h
    cases a; cases b; simp_all

end ArrayFlow
