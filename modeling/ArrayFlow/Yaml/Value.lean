import ArrayFlow.Text.Decimal
import ArrayFlow.Binary64

/-!
# YAML values

* `Yaml.Number` : a number with a fraction or an exponent, in double precision, or one of the
  special ones;
* `Yaml`        : the values; mappings keep their entries in order;
* `Yaml.same`   : equality of values, which does not look at the order of entries;
* `Yaml.ofPlain?` : the value of a scalar without quotes.

Integers are those of 64 bits with or without sign. Larger ones of up to 128 bits have no value;
beyond that a number counts as inexact.
-/

namespace ArrayFlow

/-- An inexact number. -/
inductive Yaml.Number where
  /-- Zero has no sign. -/
  | finite (negative : Bool) (magnitude : Binary64)
  | infinite (negative : Bool)
  | undefined
  deriving DecidableEq, Inhabited, Repr

/-- A YAML value. -/
inductive Yaml where
  | null
  | bool (value : Bool)
  | int (value : Int)
  | number (value : Yaml.Number)
  | str (value : String)
  | seq (items : List Yaml)
  | map (entries : List (Yaml × Yaml))
  deriving Inhabited, Repr

namespace Yaml

/-! ## equality -/

mutual

/-- Are two values one? The undefined number is the same as itself. -/
def same : Yaml → Yaml → Bool
  | null, null => true
  | bool a, bool b => a == b
  | int a, int b => a == b
  | number a, number b => a == b
  | str a, str b => a == b
  | seq xs, seq ys => sameItems xs ys
  | map es, map fs => es.length == fs.length && sameEntries es fs
  | _, _ => false

/-- Are two lists of items one, place by place? -/
def sameItems : List Yaml → List Yaml → Bool
  | [], [] => true
  | x :: xs, y :: ys => same x y && sameItems xs ys
  | [], _ :: _ => false
  | _ :: _, [] => false

/-- Is every entry of one mapping in another? -/
def sameEntries : List (Yaml × Yaml) → List (Yaml × Yaml) → Bool
  | [], _ => true
  | (k, v) :: es, fs => (fs.any fun f => same k f.1 && same v f.2) && sameEntries es fs

end

/-! ## scalars without quotes -/

/-- The sign at the front of a text, and the rest. -/
def sign : List Char → Bool × List Char
  | '-' :: rest => (true, rest)
  | '+' :: rest => (false, rest)
  | rest => (false, rest)

/-- The number that digits stand for, if they are digits of the base, and at least one. -/
def digits? (base : Nat) (cs : List Char) : Option Nat :=
  if !cs.isEmpty && cs.all fun c => (Text.digit? c).any (· < base) then
    some (Text.digitsValue base cs) else none

/-- The natural number that a text stands for: decimal without leading zeros, or in another base
with its mark. -/
def natural? : List Char → Option Nat
  | '0' :: 'x' :: rest => digits? 16 rest
  | '0' :: 'o' :: rest => digits? 8 rest
  | '0' :: 'b' :: rest => digits? 2 rest
  | '0' :: _ :: _ => none
  | cs => digits? 10 cs

/-- The integer that a text stands for, with an optional sign. -/
def integer? (cs : List Char) : Option Int :=
  let (negative, rest) := sign cs
  (natural? rest).map fun n => if negative then -n else n

/-- The exponent at the end of a number, zero if there is none. -/
def exponent? : List Char → Option Int
  | [] => some 0
  | c :: rest =>
    if c = 'e' ∨ c = 'E' then
      let (negative, rest) := sign rest
      (digits? 10 rest).map fun n => if negative then -n else n
    else none

/-- The finite number that a text stands for: digits around an optional point, and an optional
exponent. Beyond the range of double precision there is none. -/
def finite? (negative : Bool) (cs : List Char) : Option Number := do
  let whole := cs.takeWhile Char.isDigit
  let rest := cs.dropWhile Char.isDigit
  let (fraction, rest) := match rest with
    | '.' :: rest => (rest.takeWhile Char.isDigit, rest.dropWhile Char.isDigit)
    | rest => ([], rest)
  if whole.isEmpty && fraction.isEmpty then none
  let exponent ← exponent? rest
  let magnitude ← Binary64.ofDecimal? (Text.digitsValue 10 (whole ++ fraction))
    (exponent - fraction.length)
  return .finite (negative && magnitude != .zero) magnitude

/-- The inexact number that a text stands for. Digits alone that start with a zero are no number. -/
def number? (cs : List Char) : Option Number :=
  let (negative, rest) := sign cs
  let text := String.ofList rest
  if text = ".inf" ∨ text = ".Inf" ∨ text = ".INF" then some (.infinite negative)
  else if cs = rest ∧ (text = ".nan" ∨ text = ".NaN" ∨ text = ".NAN") then some .undefined
  else if 1 < rest.length ∧ rest.head? = some '0' ∧ rest.all Char.isDigit then none
  else finite? negative rest

/-- Is an integer one of so many bits, with or without sign? -/
def fits (bits : Nat) (n : Int) : Bool := -(Nat.pow 2 (bits - 1) : Int) ≤ n && n < Nat.pow 2 bits

/-- The value of a scalar without quotes; there is none for integers of more than 64 and up to 128
bits. -/
def ofPlain? (text : String) : Option Yaml :=
  let inexact := match number? text.toList with
    | some n => number n
    | none => str text
  if text = "" ∨ text = "~" ∨ text = "null" ∨ text = "Null" ∨ text = "NULL" then some null
  else if text = "true" ∨ text = "True" ∨ text = "TRUE" then some (bool true)
  else if text = "false" ∨ text = "False" ∨ text = "FALSE" then some (bool false)
  else
    match integer? text.toList with
    | some n =>
      if fits 64 n then some (int n)
      else if fits 128 n then none
      else some inexact
    | none => some inexact

/-! ## taking values apart -/

def nat? : Yaml → Option Nat
  | int n => if 0 ≤ n then some n.toNat else none
  | _ => none

def bool? : Yaml → Option Bool
  | bool b => some b
  | _ => none

def str? : Yaml → Option String
  | str s => some s
  | _ => none

def map? : Yaml → Option (List (Yaml × Yaml))
  | map es => some es
  | _ => none

/-- The value of an entry whose key is a text. -/
def get? (y : Yaml) (key : String) : Option Yaml :=
  match y with
  | map es => (es.find? fun e => e.1.str? == some key).map (·.2)
  | _ => none

def textKeys : Yaml → List String
  | map es => es.filterMap fun e => e.1.str?
  | _ => []

end Yaml

end ArrayFlow
