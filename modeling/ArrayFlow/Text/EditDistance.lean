/-!
# Edit distance

The number of insertions, deletions and substitutions of single characters between two words, and
the word of a list that is closest to a given one.

* `EditDistance.firstRow`, `EditDistance.nextRow` : distances of one prefix of the source from every
  prefix of the target, row by row;
* `editDistance` : the last entry of the last row;
* `closest?`     : the first of the candidates at the least distance.
-/

namespace ArrayFlow.Text

namespace EditDistance

/-- Distances of the empty word from the prefixes of the target. -/
def firstRow (target : List Char) : List Nat := List.range (target.length + 1)

/-- The entries of a row after its first one. `left` is the entry before them; the row above is read
in step. -/
def fillRow (c : Char) (left : Nat) : List Char → List Nat → List Nat
  | d :: ds, diagonal :: above :: row =>
    let here := Nat.min (Nat.min (above + 1) (left + 1)) (diagonal + if c = d then 0 else 1)
    here :: fillRow c here ds (above :: row)
  | _, _ => []

/-- The row of a source prefix extended by one character, from the row of the prefix. -/
def nextRow (target : List Char) (row : List Nat) (c : Char) : List Nat :=
  let first := row.headD 0 + 1
  first :: fillRow c first target row

end EditDistance

/-- The least number of single-character edits that turn `source` into `target`. -/
def editDistance (source target : String) : Nat :=
  (source.toList.foldl (EditDistance.nextRow target.toList)
    (EditDistance.firstRow target.toList)).getLastD 0

/-- The first candidate at the least distance from the word. -/
def closest? (word : String) (candidates : List String) : Option String :=
  match candidates with
  | [] => none
  | c :: rest => some
      (rest.foldl (fun best d => if editDistance word d < editDistance word best then
        d else best) c)

end ArrayFlow.Text
