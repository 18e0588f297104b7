import ArrayFlow.Yaml.Token
import ArrayFlow.Yaml.Value

/-!
# Reading YAML documents

* `Yaml.Node`   : a document as it is written, before its scalars are given values;
* `Yaml.Node.node?` and its companions : nodes by recursive descent on tokens;
* `Yaml.Node.document?` : the one document of a list of tokens, nothing for an empty one;
* `Yaml.Node.value?`    : the value of a node; keys of a mapping are distinct;
* `Yaml.parse?`         : the value that a text stands for.
-/

namespace ArrayFlow.Yaml

inductive Node where
  | scalar (text : String) (plain : Bool)
  | seq (items : List Node)
  | map (entries : List (Node × Node))
  deriving Inhabited, Repr

namespace Node

def missing : Node := scalar "" true

/-! ## grammar -/

/-- Can nothing stand in front of the token where a key or a value of a block mapping is
expected? -/
def endsBlockPart : List Token → Bool
  | .key :: _ => true
  | .value :: _ => true
  | .blockEnd :: _ => true
  | _ => false

mutual

/-- A node. Collections in block style are allowed where `block` says so, and sequences that are not
indented where `flat` does. -/
def node? : (fuel : Nat) → (block flat : Bool) → List Token → Option (Node × List Token)
  | 0, _, _, _ => none
  | fuel + 1, block, flat, ts =>
    match ts with
    | .scalar text plain :: rest => some (scalar text plain, rest)
    | .flowSeqStart :: rest => (flowItems? fuel true rest).map fun (xs, rest) => (seq xs, rest)
    | .flowMapStart :: rest => (flowEntries? fuel true rest).map fun (es, rest) => (map es, rest)
    | .blockEntry :: _ => if flat then (flatItems? fuel ts).map fun (xs, rest) =>
      (seq xs, rest) else none
    | .blockSeqStart :: rest => if block then (blockItems? fuel rest).map fun (xs, rest) =>
      (seq xs, rest) else none
    | .blockMapStart :: rest => if block then (blockEntries? fuel rest).map fun (es, rest) =>
      (map es, rest) else none
    | _ => none

/-- The items of an indented sequence, up to its end. -/
def blockItems? : (fuel : Nat) → List Token → Option (List Node × List Token)
  | 0, _ => none
  | fuel + 1, ts =>
    match ts with
    | .blockEnd :: rest => some ([], rest)
    | .blockEntry :: .blockEntry :: rest =>
      (blockItems? fuel (.blockEntry :: rest)).map fun (xs, rest) => (missing :: xs, rest)
    | .blockEntry :: .blockEnd :: rest => some ([missing], rest)
    | .blockEntry :: rest => do
      let (x, rest) ← node? fuel true false rest
      let (xs, rest) ← blockItems? fuel rest
      return (x :: xs, rest)
    | _ => none

/-- The items of a sequence that is not indented, as far as there are any. -/
def flatItems? : (fuel : Nat) → List Token → Option (List Node × List Token)
  | 0, _ => none
  | fuel + 1, ts =>
    match ts with
    | .blockEntry :: .blockEntry :: rest =>
      (flatItems? fuel (.blockEntry :: rest)).map fun (xs, rest) => (missing :: xs, rest)
    | .blockEntry :: rest =>
      if endsBlockPart rest then some ([missing], rest)
      else do
        let (x, rest) ← node? fuel true false rest
        let (xs, rest) ← flatItems? fuel rest
        return (x :: xs, rest)
    | _ => some ([], ts)

/-- The entries of a mapping in block style, up to its end. -/
def blockEntries? : (fuel : Nat) → List Token → Option (List (Node × Node) × List Token)
  | 0, _ => none
  | fuel + 1, ts =>
    match ts with
    | .blockEnd :: rest => some ([], rest)
    | .key :: rest => do
      let (k, rest) ← if endsBlockPart rest then some (missing, rest) else node? fuel true true rest
      let (v, rest) ← match rest with
        | .value :: rest => if endsBlockPart rest then
            some (missing, rest) else node? fuel true true rest
        | rest => some (missing, rest)
      let (es, rest) ← blockEntries? fuel rest
      return ((k, v) :: es, rest)
    | _ => none

/-- The items of a sequence in brackets, up to the closing one; a key makes an item a mapping of one
entry. -/
def flowItems? : (fuel : Nat) → (first : Bool) → List Token → Option (List Node × List Token)
  | 0, _, _ => none
  | fuel + 1, first, ts =>
    match first, ts with
    | _, .flowSeqEnd :: rest => some ([], rest)
    | false, .flowEntry :: .flowSeqEnd :: rest => some ([], rest)
    | false, .flowEntry :: rest => flowItem? fuel rest
    | false, _ => none
    | true, ts => flowItem? fuel ts

/-- An item of a sequence in brackets and those after it. -/
def flowItem? : (fuel : Nat) → List Token → Option (List Node × List Token)
  | 0, _ => none
  | fuel + 1, ts => do
    let (x, rest) ← match ts with
      | .key :: rest => do
        let (k, rest) ← match rest with
          | .value :: rest => some (missing, rest)
          | .flowEntry :: rest => some (missing, rest)
          | .flowSeqEnd :: rest => some (missing, rest)
          | rest => node? fuel false false rest
        let (v, rest) ← match rest with
          | .value :: .flowEntry :: rest => some (missing, .flowEntry :: rest)
          | .value :: .flowSeqEnd :: rest => some (missing, .flowSeqEnd :: rest)
          | .value :: rest => node? fuel false false rest
          | rest => some (missing, rest)
        some (map [(k, v)], rest)
      | ts => node? fuel false false ts
    let (xs, rest) ← flowItems? fuel false rest
    return (x :: xs, rest)

/-- The entries of a mapping in brackets, up to the closing one. -/
def flowEntries? : (fuel : Nat) → (first : Bool) → List Token →
    Option (List (Node × Node) × List Token)
  | 0, _, _ => none
  | fuel + 1, first, ts =>
    match first, ts with
    | _, .flowMapEnd :: rest => some ([], rest)
    | false, .flowEntry :: .flowMapEnd :: rest => some ([], rest)
    | false, .flowEntry :: rest => flowEntryOf? fuel rest
    | false, _ => none
    | true, ts => flowEntryOf? fuel ts

/-- An entry of a mapping in brackets and those after it; without a colon the value is missing. -/
def flowEntryOf? : (fuel : Nat) → List Token → Option (List (Node × Node) × List Token)
  | 0, _ => none
  | fuel + 1, ts => do
    let (e, rest) ← match ts with
      | .key :: rest => do
        let (k, rest) ← match rest with
          | .value :: rest => some (missing, .value :: rest)
          | .flowEntry :: rest => some (missing, .flowEntry :: rest)
          | .flowMapEnd :: rest => some (missing, .flowMapEnd :: rest)
          | rest => node? fuel false false rest
        let (v, rest) ← match rest with
          | .value :: .flowEntry :: rest => some (missing, .flowEntry :: rest)
          | .value :: .flowMapEnd :: rest => some (missing, .flowMapEnd :: rest)
          | .value :: rest => node? fuel false false rest
          | rest => some (missing, rest)
        some ((k, v), rest)
      | ts => do
        let (k, rest) ← node? fuel false false ts
        some ((k, missing), rest)
    let (es, rest) ← flowEntries? fuel false rest
    return (e :: es, rest)

end

/-- The document of a list of tokens, an absent scalar if there is none. After it only end markers
may follow. -/
def document? (ts : List Token) : Option Node := do
  let (x, rest) ← match ts with
    | [] => some (missing, [])
    | .documentStart :: [] => some (missing, [])
    | .documentStart :: .documentStart :: rest => some (missing, .documentStart :: rest)
    | .documentStart :: .documentEnd :: rest => some (missing, .documentEnd :: rest)
    | .documentStart :: rest => node? (3 * ts.length + 3) true false rest
    | ts => node? (3 * ts.length + 3) true false ts
  if rest.all (· == .documentEnd) then some x else none

/-! ## values -/

mutual

def depth : Node → Nat
  | scalar .. => 0
  | seq xs => depthItems xs + 1
  | map es => depthEntries es + 1

def depthItems : List Node → Nat
  | [] => 0
  | x :: xs => Nat.max (depth x) (depthItems xs)

def depthEntries : List (Node × Node) → Nat
  | [] => 0
  | (k, v) :: es => Nat.max (Nat.max (depth k) (depth v)) (depthEntries es)

end

/-- Are the keys of entries distinct? -/
def distinctKeys : List (Yaml × Yaml) → Bool
  | [] => true
  | e :: es => es.all (fun d => !d.1.same e.1) && distinctKeys es

mutual

/-- The value of a node. -/
def value? : Node → Option Yaml
  | scalar text plain => if plain then Yaml.ofPlain? text else some (.str text)
  | seq xs => (values? xs).map .seq
  | map es => do
    let es ← entries? es
    if distinctKeys es then some (.map es) else none

def values? : List Node → Option (List Yaml)
  | [] => some []
  | x :: xs => do return (← value? x) :: (← values? xs)

def entries? : List (Node × Node) → Option (List (Yaml × Yaml))
  | [] => some []
  | (k, v) :: es => do return (← value? k, ← value? v) :: (← entries? es)

end

def maxDepth : Nat := 128

end Node

/-- The value that a text stands for, if it keeps to the part of YAML that is cut into tokens here.
Text with tags, anchors, aliases, directives or scalars in block style has none. -/
def parse? (text : String) : Option Yaml := do
  let x ← Node.document? (← tokens? text)
  if x.depth ≤ Node.maxDepth then x.value? else none

end ArrayFlow.Yaml
