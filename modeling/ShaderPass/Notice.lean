import ShaderPass.Diagnostic

/-!
# Notice — what is worth saying about a shader that goes on being compiled

A **notice** warns of something that is allowed and was hardly meant.  The **log** keeps notices and
the failures that were not passed on to the caller, in the order in which they arose.
-/

namespace ShaderPass

/-- What a notice warns of. -/
inductive Concern
  | predefinedRedefined (name : String)
  | notSplicedAgain (path : String)
  | stageRepeated (stage : String)
  | strayDirective (line : String)
  deriving DecidableEq, Repr

/-- The wording of a concern. -/
def Concern.message : Concern → String
  | .predefinedRedefined name => "predefined macro '" ++ name ++ "' redefined"
  | .notSplicedAgain path => "'" ++ path ++ "' was marked #pragma once, not included again"
  | .stageRepeated stage => stage ++ " given twice, keeping the last"
  | .strayDirective line => "ignoring '" ++ line ++ "' outside of a Pass"

/-- A concern, and where it arose. -/
structure Notice where
  concern : Concern
  position : Source.Position
  deriving DecidableEq, Repr

/-- A notice on one line. -/
def Notice.display (n : Notice) : String := n.position.render ++ ": " ++ n.concern.message

/-- An entry of the log. -/
inductive LogEntry
  | warning (notice : Notice)
  | failure (diagnostic : Diagnostic)
  deriving DecidableEq, Repr

/-- An entry of the log on one line. -/
def LogEntry.text : LogEntry → String
  | .warning notice => notice.display
  | .failure diagnostic => diagnostic.display

end ShaderPass
