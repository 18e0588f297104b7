import ArrayFlow.Settings.Basic
import ArrayFlow.Yaml.Node
import ArrayFlow.Json.Parser

/-!
# Settings in documents

A settings document is a mapping with a `version` and an optional section `analysis`, whose entries
set the knobs.

* `Settings.fields`    : the names of the knobs, in order;
* `Settings.ofYaml`    : the settings of a YAML value, and which of its faults is reported;
* `Settings.toYaml`    : the document of settings;
* `Settings.readText`, `Settings.writeText` : settings and texts, whatever reads and writes
  documents;
* `Settings.parseYaml`, `Settings.yamlText` : the same with the reader `Yaml.parse?` and the writer
  `documentText`;
* `Settings.ofJson?`   : settings as a record of the interchange format.

What a text stands for is up to the reader of documents, and no statement about settings depends on
one.
-/

namespace ArrayFlow

namespace Settings

def fields : List String :=
  ["worklist_max_iterations", "strict_dangling_uses", "prune_trivial_phis", "record_flow_graph",
    "record_rejected_edges"]

def rootFields : List String := ["version", "analysis"]

/-- The versions of documents that can be read. -/
def supportedVersions : List Nat := [1]

/-- Versions above this one are reported as this one. -/
def greatestVersion : Nat := 4294967295

/-! ## reading YAML -/

/-- Refuses the first key of a mapping that is a text and not among the valid ones. -/
def checkKeys (y : Yaml) (place : String) (valid : List String) : Except SettingsFault Unit :=
  match y.textKeys.find? (· ∉ valid) with
  | some k => .error (.unknownField k place valid)
  | none => .ok ()

/-- Refuses a document without a version that can be read. -/
def checkVersion (y : Yaml) : Except SettingsFault Unit :=
  match (y.get? "version").bind Yaml.nat? with
  | none => .error .missingVersion
  | some n =>
    let found := Nat.min n greatestVersion
    if found ∈ supportedVersions then .ok ()
      else .error (.unsupportedVersion found supportedVersions)

/-- Sets the knob of a name to a value. -/
def set? (s : Settings) (name : String) (y : Yaml) : Option Settings :=
  if name = "worklist_max_iterations" then y.nat?.map fun n => { s with maxIterations := n }
  else if name = "strict_dangling_uses" then y.bool?.map fun b => { s with strictUses := b }
  else if name = "prune_trivial_phis" then y.bool?.map fun b => { s with pruneTrivial := b }
  else if name = "record_flow_graph" then y.bool?.map fun b => { s with recordFlow := b }
  else if name = "record_rejected_edges" then y.bool?.map fun b => { s with recordRejected := b }
  else none

def setAll? (s : Settings) (entries : List (Yaml × Yaml)) : Option Settings :=
  entries.foldlM (fun s (k, v) => k.str?.bind (s.set? · v)) s

/-- The settings of the section `analysis`, which may be missing or null. -/
def ofSection? : Option Yaml → Option Settings
  | none => some {}
  | some .null => some {}
  | some (.map entries) => setAll? {} entries
  | some _ => none

def ofChecked? (y : Yaml) : Option Settings := do
  let entries ← y.map?
  if entries.all fun e => e.1.str?.isSome then ofSection? (y.get? "analysis") else none

/-- The settings of a document. Looked at in turn: the version, the keys of the document, those of
the section, the form of the values, and their range. -/
def ofYaml (y : Yaml) : Except SettingsFault Settings := do
  checkVersion y
  checkKeys y "root" rootFields
  match y.get? "analysis" with
  | some part => checkKeys part "analysis" fields
  | none => .ok ()
  match ofChecked? y with
  | some s => s.validated
  | none => .error .malformed

def readText (parse : String → Option Yaml) (text : String) : Except SettingsFault Settings :=
  match parse text with
  | some y => ofYaml y
  | none => .error .malformed

def parseYaml (text : String) : Except SettingsFault Settings := readText Yaml.parse? text

/-- The settings of a file of UTF-8 bytes, or of none. -/
def parseFile (bytes : Option ByteArray) : Except SettingsFault Settings :=
  match bytes.bind String.fromUTF8? with
  | some text => parseYaml text
  | none => .error .unreadableFile

/-! ## writing YAML -/

def entries (s : Settings) : List (String × Yaml) :=
  [("worklist_max_iterations", .int s.maxIterations), ("strict_dangling_uses", .bool s.strictUses),
    ("prune_trivial_phis", .bool s.pruneTrivial), ("record_flow_graph", .bool s.recordFlow),
    ("record_rejected_edges", .bool s.recordRejected)]

def toYaml (s : Settings) : Yaml :=
  .map [(.str "version", .int 1), (.str "analysis", .map (s.entries.map fun (k, v) => (.str k, v)))]

/-- The text of an integer or a truth value. -/
def scalarText : Yaml → String
  | .int n => toString n
  | .bool b => if b then "true" else "false"
  | _ => ""

/-- The lines of an entry at an indentation: a section has its entries below its name. -/
def entryText (indent : String) : Yaml × Yaml → String
  | (.str k, .map es) => indent ++ k ++ ":\n" ++ String.join (es.map (line (indent ++ "  ")))
  | e => line indent e
where
  line (indent : String) : Yaml × Yaml → String
    | (.str k, v) => indent ++ k ++ ": " ++ scalarText v ++ "\n"
    | _ => ""

/-- The text of a document of sections: one entry a line, sections indented by two blanks. -/
def documentText : Yaml → String
  | .map es => String.join (es.map (entryText ""))
  | _ => ""

def writeText (print : Yaml → String) (s : Settings) : String := print s.toYaml

def yamlText (s : Settings) : String := writeText documentText s

/-! ## the interchange format -/

/-- The greatest number of iterations that the interchange format holds. -/
def greatestWritten : Nat := 18446744073709551615

def toJson (s : Settings) : Json :=
  .obj [("worklist_max_iterations", .nat s.maxIterations),
    ("strict_dangling_uses", .bool s.strictUses), ("prune_trivial_phis", .bool s.pruneTrivial),
    ("record_flow_graph", .bool s.recordFlow), ("record_rejected_edges", .bool s.recordRejected)]

def fieldOr {α : Type} (default : α) (read : Json → Option α) : Option Json → Option α
  | some j => read j
  | none => some default

def hasOnly (names : List String) : Json → Bool
  | .obj fs => fs.all fun f => names.contains f.1
  | _ => true

/-- Reads settings. Fields may be missing, but there may be no others. -/
def ofJson? (j : Json) : Option Settings :=
  if hasOnly fields j then
    match j.record? fields with
    | some [limit, strict, prune, flow, rejected] => do
      return {
        maxIterations := ← fieldOr 100000 (Json.nat? greatestWritten) limit
        strictUses := ← fieldOr false Json.bool? strict
        pruneTrivial := ← fieldOr false Json.bool? prune
        recordFlow := ← fieldOr true Json.bool? flow
        recordRejected := ← fieldOr true Json.bool? rejected }
    | _ => none
  else none

end Settings

end ArrayFlow
