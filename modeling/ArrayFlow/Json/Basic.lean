/-!
# Values of the interchange format

JSON values as they are read and written here. Objects keep their fields in order, repeated ones
included.

* `Json`                  : the values;
* `Json.record?`          : a record, written as an object or as the list of its fields in order;
* `Json.depth`            : how deep lists and objects are nested;
* `Json.readable`         : no part of the value is unreadable.
-/

namespace ArrayFlow

/-- A value of the interchange format. -/
inductive Json where
  | null
  | bool (value : Bool)
  | nat (value : Nat)
  /-- Any number that is not written as a plain natural one: `mantissa * 10 ^ exponent`. -/
  | decimal (mantissa exponent : Int)
  | str (value : String)
  | arr (items : List Json)
  | obj (fields : List (String × Json))
  /-- Well-formed text that stands for no value: a string with half of a surrogate pair, an object
  with such a string for a field name, a number beyond the range of double precision. It can be
  passed over, not used. -/
  | unreadable
  deriving Inhabited, Repr

namespace Json

/-! ## taking values apart -/

/-- The truth value, if it is one. -/
def bool? : Json → Option Bool
  | bool b => some b
  | _ => none

/-- The natural number, if it is one of at most `bound`. -/
def nat? (bound : Nat) : Json → Option Nat
  | nat n => if n ≤ bound then some n else none
  | _ => none

def str? : Json → Option String
  | str s => some s
  | _ => none

def arr? : Json → Option (List Json)
  | arr xs => some xs
  | _ => none

def obj? : Json → Option (List (String × Json))
  | obj fs => some fs
  | _ => none

def field? (j : Json) (name : String) : Option Json :=
  match j with
  | obj fs => fs.lookup name
  | _ => none

/-- The fields of a record in the order of `names`, absent ones as `none`. A record is an object in
which none of the names is repeated, whatever other fields it has, or a list that is not longer than
the names. -/
def record? (names : List String) : Json → Option (List (Option Json))
  | obj fs =>
    if names.all fun n => (fs.filter (·.1 == n)).length ≤ 1 then
      some (names.map fun n => fs.lookup n) else none
  | arr xs =>
    if xs.length ≤ names.length then
      some (xs.map some ++ List.replicate (names.length - xs.length) none) else none
  | _ => none

/-! ## shape -/

mutual

/-- How deep lists and objects are nested; plain values have depth zero. -/
def depth : Json → Nat
  | arr xs => depthItems xs + 1
  | obj fs => depthFields fs + 1
  | _ => 0

def depthItems : List Json → Nat
  | [] => 0
  | x :: xs => Nat.max (depth x) (depthItems xs)

def depthFields : List (String × Json) → Nat
  | [] => 0
  | (_, x) :: fs => Nat.max (depth x) (depthFields fs)

end

mutual

/-- Is every part of the value readable? -/
def readable : Json → Bool
  | arr xs => readableItems xs
  | obj fs => readableFields fs
  | unreadable => false
  | _ => true

def readableItems : List Json → Bool
  | [] => true
  | x :: xs => readable x && readableItems xs

def readableFields : List (String × Json) → Bool
  | [] => true
  | (_, x) :: fs => readable x && readableFields fs

end

end Json

end ArrayFlow
