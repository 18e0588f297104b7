import ArrayFlow.Json.Basic
import ArrayFlow.Text.Decimal
import ArrayFlow.Binary64

/-!
# Reading the interchange format

The strict grammar: no comments, no trailing commas, no leading zeros, no control characters inside
quotes, and nothing but blanks after the value.

* `Json.scanString`, `Json.scanNumber` : a string and a number at the front of a text, with the
  rest;
* `Json.value`, `Json.items`, `Json.fields` : values by recursive descent;
* `Json.parse?` : the value that a text stands for.

Strings are scanned into `Piece`s first: whether halves of surrogate pairs fit together matters only
where the string is used.
-/

namespace ArrayFlow.Json

open Text (digit? digitsValue)

/-! ## strings -/

/-- A piece of a quoted string: a character, or a code unit given by a `\u` escape. -/
inductive Piece where
  | char (c : Char)
  | code (n : Nat)

/-- The character that a letter stands for after a backslash. -/
def unescape? (c : Char) : Option Char :=
  if c = '"' ∨ c = '\\' ∨ c = '/' then some c
  else if c = 'b' then some '\x08'
  else if c = 'f' then some '\x0c'
  else if c = 'n' then some '\n'
  else if c = 'r' then some '\r'
  else if c = 't' then some '\t'
  else none

/-- The rest of a quoted string, after its opening quote, and what follows the closing one. -/
def scanString : List Char → Option (List Piece × List Char)
  | [] => none
  | '"' :: rest => some ([], rest)
  | '\\' :: 'u' :: a :: b :: c :: d :: rest => do
    let n := (← digit? a) * 4096 + (← digit? b) * 256 + (← digit? c) * 16 + (← digit? d)
    let (pieces, rest) ← scanString rest
    some (.code n :: pieces, rest)
  | '\\' :: e :: rest => do
    let c ← unescape? e
    let (pieces, rest) ← scanString rest
    some (.char c :: pieces, rest)
  | c :: rest =>
    if c.toNat < 32 then none
    else do
      let (pieces, rest) ← scanString rest
      some (.char c :: pieces, rest)

def isLeading (n : Nat) : Bool := 0xD800 ≤ n && n < 0xDC00

def isTrailing (n : Nat) : Bool := 0xDC00 ≤ n && n < 0xE000

/-- The characters of a string, if every half of a surrogate pair has its other half. -/
def characters? : List Piece → Option (List Char)
  | [] => some []
  | .char c :: rest => (characters? rest).map (c :: ·)
  | .code n :: .code m :: rest =>
    if isLeading n then
      if isTrailing m then
        (characters? rest).map (Char.ofNat (0x10000 + (n - 0xD800) * 1024 + (m - 0xDC00)) :: ·)
      else none
    else if isTrailing n then none
    else (characters? (.code m :: rest)).map (Char.ofNat n :: ·)
  | .code n :: rest =>
    if isLeading n || isTrailing n then none else (characters? rest).map (Char.ofNat n :: ·)

def text? (pieces : List Piece) : Option String := (characters? pieces).map String.ofList

/-! ## numbers -/

/-- The digits at the front of a text, at least one, and the rest. -/
def scanDigits (cs : List Char) : Option (List Char × List Char) :=
  match cs.takeWhile Char.isDigit with
  | [] => none
  | ds => some (ds, cs.dropWhile Char.isDigit)

/-- The digits after a point, none if there is no point. -/
def scanFraction : List Char → Option (List Char × List Char)
  | '.' :: rest => scanDigits rest
  | rest => some ([], rest)

/-- The exponent after `e` or `E`, if there is one. -/
def scanExponent (cs : List Char) : Option (Option Int × List Char) :=
  match cs with
  | c :: rest =>
    if c = 'e' ∨ c = 'E' then
      match rest with
      | '-' :: rest => (scanDigits rest).map fun (ds, rest) => (some (-digitsValue 10 ds), rest)
      | '+' :: rest => (scanDigits rest).map fun (ds, rest) => (some (digitsValue 10 ds), rest)
      | rest => (scanDigits rest).map fun (ds, rest) => (some (digitsValue 10 ds), rest)
    else some (none, cs)
  | [] => some (none, [])

/-- Takes digits into a significand for as long as it has at most 64 bits; the digits that are left
are returned. -/
def absorb (significand : Nat) : List Char → Nat × List Char
  | [] => (significand, [])
  | c :: rest =>
    let next := 10 * significand + (digit? c).getD 0
    if next ≤ 18446744073709551615 then absorb next rest else (significand, c :: rest)

/-- Is `significand * 10 ^ exponent` in range? The two factors are taken in double precision, and
their product has to be finite. -/
def inRange (significand : Nat) (exponent : Int) : Bool :=
  if significand = 0 ∨ exponent ≤ 0 then true
  else
    match Binary64.nearest? significand 1, Binary64.ofDecimal? 1 exponent with
    | some x, some y => (x.mul? y).isSome
    | _, _ => false

/-- A number without its sign. The digits behind those that its significand has room for are
dropped, before the point and behind it. -/
def scanUnsigned (negative : Bool) (cs : List Char) : Option (Json × List Char) := do
  let (whole, rest) ← scanDigits cs
  if 1 < whole.length ∧ whole.head? = some '0' then none
  let (fraction, rest) ← scanFraction rest
  let (exponent, rest) ← scanExponent rest
  let (significand, dropped) := absorb 0 whole
  let (significand, ignored) := absorb significand fraction
  let power := exponent.getD 0 + dropped.length + ignored.length - fraction.length
  let mantissa := digitsValue 10 (whole ++ fraction)
  let number :=
    if !inRange significand power then unreadable
    else if negative || !fraction.isEmpty || exponent.isSome then
      decimal (if negative then -mantissa else mantissa) (exponent.getD 0 - fraction.length)
    else nat mantissa
  some (number, rest)

def scanNumber : List Char → Option (Json × List Char)
  | '-' :: rest => scanUnsigned true rest
  | rest => scanUnsigned false rest

/-! ## values -/

def isBlank (c : Char) : Bool := c == ' ' || c == '\n' || c == '\t' || c == '\r'

def skipBlanks (cs : List Char) : List Char := cs.dropWhile isBlank

def object (fields : List (Option String × Json)) : Json :=
  match fields.mapM fun (name, x) => name.map (·, x) with
  | some fs => obj fs
  | none => unreadable

mutual

def value : Nat → List Char → Option (Json × List Char)
  | 0, _ => none
  | fuel + 1, cs =>
    match skipBlanks cs with
    | 'n' :: 'u' :: 'l' :: 'l' :: rest => some (null, rest)
    | 't' :: 'r' :: 'u' :: 'e' :: rest => some (bool true, rest)
    | 'f' :: 'a' :: 'l' :: 's' :: 'e' :: rest => some (bool false, rest)
    | '"' :: rest => (scanString rest).map fun (pieces, rest) =>
      (((text? pieces).map str).getD unreadable, rest)
    | '[' :: rest =>
      match skipBlanks rest with
      | ']' :: rest => some (arr [], rest)
      | rest => (items fuel rest).map fun (xs, rest) => (arr xs, rest)
    | '\x7b' :: rest =>
      match skipBlanks rest with
      | '\x7d' :: rest => some (obj [], rest)
      | rest => (fields fuel rest).map fun (fs, rest) => (object fs, rest)
    | rest => scanNumber rest

def items : Nat → List Char → Option (List Json × List Char)
  | 0, _ => none
  | fuel + 1, cs =>
    match value fuel cs with
    | none => none
    | some (x, rest) =>
      match skipBlanks rest with
      | ',' :: rest => (items fuel rest).map fun (xs, rest) => (x :: xs, rest)
      | ']' :: rest => some ([x], rest)
      | _ => none

def fields : Nat → List Char → Option (List (Option String × Json) × List Char)
  | 0, _ => none
  | fuel + 1, cs =>
    match skipBlanks cs with
    | '"' :: rest =>
      match scanString rest with
      | none => none
      | some (name, rest) =>
        match skipBlanks rest with
        | ':' :: rest =>
          match value fuel rest with
          | none => none
          | some (x, rest) =>
            match skipBlanks rest with
            | ',' :: rest => (fields fuel rest).map fun (fs, rest) => ((text? name, x) :: fs, rest)
            | '\x7d' :: rest => some ([(text? name, x)], rest)
            | _ => none
        | _ => none
    | _ => none

end

/-- The value that a text stands for. Every two calls in a row take at least one character, which
bounds the descent. -/
def parse? (text : String) : Option Json :=
  match value (2 * text.length + 2) text.toList with
  | some (x, rest) => if (skipBlanks rest).isEmpty then some x else none
  | none => none

end ArrayFlow.Json
