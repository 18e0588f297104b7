import ArrayFlow.Text.Alphanumeric

/-!
# Identifiers in source text

* `isIdentifierChar`  : letters, numbers, `_` and `$`;
* `replaceIdentifier` : a text in which a name is replaced wherever it stands alone, that is, where
  neither the character before it nor the one after it could belong to the same identifier.

Occurrences of the name are taken from left to right and do not overlap, whether they are replaced
or not.
-/

namespace ArrayFlow.Text

def isIdentifierChar (c : Char) : Bool := isLetterOrNumber c || c == '_' || c == '$'

/-- The end of the text, or a character that no identifier contains. -/
def isBoundary : Option Char → Bool
  | some c => !isIdentifierChar c
  | none => true

/-- Replacement in the rest of a text. `before` is the character in front of the rest, and `skip`
the number of its characters that belong to an occurrence already written. -/
def replaceFrom (name replacement : List Char) (before : Option Char) (skip : Nat) :
    List Char → List Char
  | [] => []
  | c :: rest =>
    match skip with
    | k + 1 => replaceFrom name replacement (some c) k rest
    | 0 =>
      if name.isPrefixOf (c :: rest) then
        let alone := isBoundary before && isBoundary (c :: rest)[name.length]?
        (if alone then replacement else name) ++ replaceFrom name replacement (some c)
          (name.length - 1) rest
      else c :: replaceFrom name replacement (some c) 0 rest

/-- The text with `name` replaced wherever it stands alone; the empty name occurs nowhere. -/
def replaceIdentifier (text name replacement : String) : String :=
  if name.isEmpty then text
  else String.ofList (replaceFrom name.toList replacement.toList none 0 text.toList)

end ArrayFlow.Text
