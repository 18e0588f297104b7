import ArrayFlow.Fault
import ArrayFlow.Settings.Basic

/-!
# Why there is no result

The entry points that read texts or take settings can fail for reasons of different kinds.

* `Failure`          : a fault of a procedure or its analysis, a fault of the settings, or a text
  that cannot be read;
* `Failure.message?` : the wording, which names the kind first;
* `Failure.isFatal`  : is there no way to go on? Only a fault of an analysis leaves one.
-/

namespace ArrayFlow

/-- A reason for having no result. -/
inductive Failure where
  | analysis (fault : Fault)
  | settings (fault : SettingsFault)
  /-- The text is not in the interchange format. -/
  | unreadable
  deriving DecidableEq, Inhabited, Repr

namespace Failure

/-- The wording of a failure; texts that cannot be read are worded where they come from. -/
def message? : Failure → Option String
  | analysis f => some ("Analysis error: " ++ f.message)
  | settings f => f.message?.map ("Configuration error: " ++ ·)
  | unreadable => none

def isFatal : Failure → Bool
  | analysis f => f.isFatal
  | settings _ => true
  | unreadable => true

end Failure

end ArrayFlow
