import ArrayFlow.Json.Basic

/-!
# Text of the interchange format

* `Json.quote`   : a string in quotes, with the short escapes and `\u00xx` for other control
  characters;
* `Json.compact` : a value without any blank;
* `Json.pretty`  : a value with one item or field a line, two blanks deeper for each level.
-/

namespace ArrayFlow.Json

def hexDigit (n : Nat) : Char := Nat.digitChar n

def escape (c : Char) : String :=
  if c = '"' then "\\\""
  else if c = '\\' then "\\\\"
  else if c = '\n' then "\\n"
  else if c = '\r' then "\\r"
  else if c = '\t' then "\\t"
  else if c.toNat = 8 then "\\b"
  else if c.toNat = 12 then "\\f"
  else if c.toNat < 32 then String.ofList ['\\', 'u', '0', '0', hexDigit (c.toNat / 16),
    hexDigit (c.toNat % 16)]
  else c.toString

def quote (s : String) : String := "\"" ++ s.toList.foldl (fun acc c => acc ++ escape c) "" ++ "\""

/-- A number that is not a plain natural one, as a mantissa with an exponent. -/
def decimalText (mantissa exponent : Int) : String :=
  toString mantissa ++ "e" ++ toString exponent

mutual

/-- The text of a value without blanks. -/
def compact : Json → String
  | null => "null"
  | bool b => if b then "true" else "false"
  | nat n => n.repr
  | decimal m e => decimalText m e
  | str s => quote s
  | arr xs => "[" ++ ",".intercalate (compactItems xs) ++ "]"
  | obj fs => "\x7b" ++ ",".intercalate (compactFields fs) ++ "\x7d"
  | unreadable => "null"

def compactItems : List Json → List String
  | [] => []
  | x :: xs => compact x :: compactItems xs

def compactFields : List (String × Json) → List String
  | [] => []
  | (k, x) :: fs => (quote k ++ ":" ++ compact x) :: compactFields fs

end

/-- A line break followed by the blanks of a nesting level. -/
def newline (level : Nat) : String := "\n" ++ "".pushn ' ' (2 * level)

/-- Lines between two brackets; nothing between them when there is no line. -/
def bracketed (opening closing : String) (level : Nat) : List String → String
  | [] => opening ++ closing
  | lines =>
    opening ++ newline (level + 1) ++ ("," ++ newline (level + 1)).intercalate lines ++
      newline level ++ closing

mutual

/-- The indented text of a value that starts at a nesting level. -/
def prettyAt (level : Nat) : Json → String
  | arr xs => bracketed "[" "]" level (prettyItems (level + 1) xs)
  | obj fs => bracketed "\x7b" "\x7d" level (prettyFields (level + 1) fs)
  | null => "null"
  | bool b => if b then "true" else "false"
  | nat n => n.repr
  | decimal m e => decimalText m e
  | str s => quote s
  | unreadable => "null"

def prettyItems (level : Nat) : List Json → List String
  | [] => []
  | x :: xs => prettyAt level x :: prettyItems level xs

def prettyFields (level : Nat) : List (String × Json) → List String
  | [] => []
  | (k, x) :: fs => (quote k ++ ": " ++ prettyAt level x) :: prettyFields level fs

end

def pretty (j : Json) : String := prettyAt 0 j

end ArrayFlow.Json
