import ShaderPass.Source.Position

/-!
# Diagnostic — what is reported about a shader that cannot be compiled

A **diagnostic** is the report in words: at which stage what went wrong, and where.  Only the
configuration has no position in a shader; its diagnostics name a file.  The modules of the stages
keep causes instead of words, and word them at the end.
-/

namespace ShaderPass

/-- The stages of a compilation that can fail. -/
inductive Stage
  | scan
  | directive
  | parse
  | assembly
  deriving DecidableEq, Repr

/-- The word for a stage. -/
def Stage.word : Stage → String
  | .scan => "scan"
  | .directive => "directive"
  | .parse => "parse"
  | .assembly => "assembly"

/-- A report in words. -/
inductive Diagnostic
  | source (stage : Stage) (message : String) (position : Source.Position)
  | config (path message : String)
  deriving DecidableEq, Repr

namespace Diagnostic

/-- What went wrong. -/
def message : Diagnostic → String
  | .source _ message _ => message
  | .config _ message => message

/-- Where it went wrong. -/
def position? : Diagnostic → Option Source.Position
  | .source _ _ position => some position
  | .config _ _ => none

/-- The report on one line. -/
def display : Diagnostic → String
  | .source stage message position =>
    position.render ++ ": " ++ stage.word ++ " error: " ++ message
  | .config path message => "config error in '" ++ path ++ "': " ++ message

end Diagnostic

/-- A cause of failure, and where it arose. -/
structure Failure (Cause : Type) where
  cause : Cause
  position : Source.Position
  deriving DecidableEq, Repr

end ShaderPass
