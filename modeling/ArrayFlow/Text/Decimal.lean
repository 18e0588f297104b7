/-!
# Decimal numbers in text

* `digitsValue` : the number that digits stand for in some base;
* `digit?`      : the value of a digit, up to sixteen of them.
-/

namespace ArrayFlow.Text

/-- The value of a digit, letters of either case standing for ten and more. -/
def digit? (c : Char) : Option Nat :=
  if '0' ≤ c ∧ c ≤ '9' then some (c.toNat - '0'.toNat)
  else if 'a' ≤ c ∧ c ≤ 'f' then some (c.toNat - 'a'.toNat + 10)
  else if 'A' ≤ c ∧ c ≤ 'F' then some (c.toNat - 'A'.toNat + 10)
  else none

/-- The number that digits stand for in a base of at most sixteen. -/
def digitsValue (base : Nat) (digits : List Char) : Nat :=
  digits.foldl (fun n c => base * n + (digit? c).getD 0) 0

end ArrayFlow.Text
