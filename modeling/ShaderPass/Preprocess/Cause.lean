import ShaderPass.Diagnostic
import ShaderPass.Directive.Basic
import ShaderPass.Condition.Expr
import ShaderPass.Macro.Expansion

/-!
# Preprocess/Cause — why preprocessing fails
-/

namespace ShaderPass.Preprocess

/-- The directives that go on with an open group. -/
inductive GroupWord
  | elseIf
  | otherwise
  | endGroup
  deriving DecidableEq, Repr

/-- A directive of an open group as written. -/
def GroupWord.spelling : GroupWord → String
  | .elseIf => "#elif"
  | .otherwise => "#else"
  | .endGroup => "#endif"

/-- What can be wrong with a condition line. -/
inductive ConditionCause
  | lexeme (fault : Lexeme.Fault)
  | definedWithoutName
  | definedWithoutClosing
  | invocation (fault : Macro.Fault)
  | expression (text : String) (fault : Condition.Fault)
  deriving DecidableEq, Repr

/-- The wording of what is wrong with a condition line. -/
def ConditionCause.message : ConditionCause → String
  | .lexeme fault => "invalid #if expression: " ++ fault.message
  | .definedWithoutName => "expected macro name after 'defined'"
  | .definedWithoutClosing => "missing ')' after 'defined'"
  | .invocation fault => fault.message
  | .expression text fault => "invalid #if expression '" ++ text ++ "': " ++ fault.message

/-- A cause of failure. -/
inductive Cause
  | lexeme (fault : Lexeme.Fault)
  | predefined (name : String) (fault : Lexeme.Fault)
  | unknownDirective (line : String)
  | malformedDirective (word line : String)
  | duplicateParam (param name : String)
  | definition (name : String) (fault : Lexeme.Fault)
  | reservedName
  | withoutGroup (word : GroupWord)
  | afterElse (word : GroupWord)
  | unterminatedGroup
  | condition (cause : ConditionCause)
  | stopped (message : String)
  | unresolved (path : String)
  | circular (chain : List String)
  | invocation (fault : Macro.Fault)
  deriving DecidableEq, Repr

namespace Cause

/-- The stage that a cause belongs to. -/
def stage : Cause → Stage
  | .lexeme _ | .predefined _ _ => .scan
  | _ => .directive

/-- The wording of a cause. -/
def message : Cause → String
  | .lexeme fault => fault.message
  | .predefined name fault => "in predefined macro '" ++ name ++ "': " ++ fault.message
  | .unknownDirective line => "unknown directive: " ++ line
  | .malformedDirective word line => "malformed #" ++ word ++ " directive: " ++ line
  | .duplicateParam param name =>
    "duplicate parameter '" ++ param ++ "' in macro '" ++ name ++ "'"
  | .definition name fault => "in definition of macro '" ++ name ++ "': " ++ fault.message
  | .reservedName => "'defined' cannot be used as a macro name"
  | .withoutGroup word => word.spelling ++ " without #if"
  | .afterElse word => word.spelling ++ " after #else"
  | .unterminatedGroup => "unterminated conditional block: missing #endif"
  | .condition cause => cause.message
  | .stopped message => Text.trimEnd ("#error " ++ message)
  | .unresolved path => "unresolved include \"" ++ path ++ "\""
  | .circular chain => "circular include: " ++ String.intercalate " -> " chain
  | .invocation fault => fault.message

/-- The cause of a line that is no directive. -/
def ofBadLine (word line : String) : Cause :=
  if word ∈ Directive.words then .malformedDirective word line else .unknownDirective line

end Cause

/-- A failure of preprocessing. -/
abbrev Error := Failure Cause

/-- The report of a failure. -/
def Error.diagnostic (e : Error) : Diagnostic :=
  .source e.cause.stage e.cause.message e.position

end ShaderPass.Preprocess
