import ArrayFlow.Text.EditDistance

/-!
# Settings of the analysis

* `Settings`          : the knobs with their defaults;
* `Settings.validate` : the range check;
* `SettingsFault`     : why settings are refused, with its wording.
-/

namespace ArrayFlow

structure Settings where
  /-- How many blocks may be taken from the worklist of one loop before the loop is given up. -/
  maxIterations : Nat := 100000
  /-- Does a dangling use stop the analysis? -/
  strictUses : Bool := false
  /-- Is a merge of one version with itself that version again? -/
  pruneTrivial : Bool := false
  recordFlow : Bool := true
  recordRejected : Bool := true
  deriving DecidableEq, Inhabited, Repr

/-- A reason to refuse settings. -/
inductive SettingsFault where
  | outOfRange (field : String) (value least greatest : Nat) (hint : String)
  | unknownField (field place : String) (valid : List String)
  | missingVersion
  | unsupportedVersion (found : Nat) (supported : List Nat)
  /-- The file cannot be read as text. -/
  | unreadableFile
  /-- The text is not a document, or the document does not have the form of settings. -/
  | malformed
  deriving DecidableEq, Inhabited, Repr

namespace SettingsFault

/-- What to write instead of an unknown field. -/
def suggestion (field : String) (valid : List String) : String :=
  match Text.closest? field valid with
  | some f => "Did you mean '" ++ f ++ "'?"
  | none => "No valid fields available"

/-- The wording of a fault; faults of the file and of the document are worded where they come
from. -/
def message? : SettingsFault → Option String
  | outOfRange f v l g hint =>
    some ("Invalid range for field '" ++ f ++ "': " ++ v.repr ++ " not in " ++ l.repr ++ "..=" ++
      g.repr ++ ". " ++
      hint)
  | unknownField f place valid =>
    some ("Unknown field '" ++ f ++ "' in section '" ++ place ++ "'. " ++ suggestion f valid)
  | missingVersion =>
    some "Missing 'version' field in configuration file. Add 'version: 1' to the top of your YAML file."
  | unsupportedVersion n ns =>
    some ("Unsupported configuration version " ++ n.repr ++ ". Supported versions: " ++
      ", ".intercalate (ns.map Nat.repr))
  | unreadableFile => none
  | malformed => none

end SettingsFault

namespace Settings

/-- The name under which settings are reported. -/
def kindName : String := "AnalysisConfig"

def leastIterations : Nat := 1

def greatestIterations : Nat := 10000000

/-- Refuses a number of iterations out of range. -/
def validate (s : Settings) : Except SettingsFault Unit :=
  if leastIterations ≤ s.maxIterations ∧ s.maxIterations ≤ greatestIterations then .ok ()
  else .error (.outOfRange "worklist_max_iterations" s.maxIterations leastIterations
    greatestIterations
    "The loop worklist needs at least one iteration; very large caps hide non-terminating loops")

def validated (s : Settings) : Except SettingsFault Settings := s.validate.map fun _ => s

end Settings

end ArrayFlow
