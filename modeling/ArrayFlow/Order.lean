import Std.Data.ExtTreeMap
import Std.Data.ExtTreeSet

/-!
# Orders by key

Keys of ordered maps are compared by one of their parts, or by several parts in turn.

* `eq_of_compareOn`  : an order by a key that decides its values has only equal elements as ties;
* `eq_of_compareLex` : a tie of two orders taken in turn is a tie of both.
-/

namespace ArrayFlow

variable {α β : Type}

theorem eq_of_compareOn [Ord β] [Std.LawfulEqOrd β] {key : α → β} {a b : α}
    (h : compareOn key a b = .eq) :
    key a = key b :=
  Std.LawfulEqOrd.eq_of_compare h

theorem eq_of_compareLex {first second : α → α → Ordering} {a b : α}
    (h : compareLex first second a b = .eq) :
    first a b = .eq ∧ second a b = .eq :=
  Ordering.then_eq_eq.1 h

end ArrayFlow
