import ShaderPass.Diagnostic
import ShaderPass.Lexeme.Basic
import ShaderPass.Shader.Tree

/-!
# Shader/Cause — why a preprocessed text is no shader
-/

namespace ShaderPass.Shader

/-- What a punctuation character is expected for. -/
inductive Purpose
  | afterShaderName
  | closeShader
  | openSubShader
  | openPass
  | afterQueueType
  | afterTags
  | afterTagName
  | afterBlock (block : StateBlock)
  | afterTargetIndex
  | afterStateName
  | betweenComponents
  deriving DecidableEq, Repr

/-- The wording of a purpose. -/
def Purpose.message : Purpose → String
  | .afterShaderName => "after shader name"
  | .closeShader => "to close Shader block"
  | .openSubShader => "to open SubShader block"
  | .openPass => "to open Pass block"
  | .afterQueueType => "after 'RenderQueueType'"
  | .afterTags => "after 'Tags'"
  | .afterTagName => "after tag name"
  | .afterBlock block => "after '" ++ block.keyword.spelling ++ "'"
  | .afterTargetIndex => "after render target index"
  | .afterStateName => "after render state name"
  | .betweenComponents => "between Color components"

/-- A cause of failure. -/
inductive Cause
  | lexeme (fault : Lexeme.Fault)
  | punct (c : Char) (purpose : Purpose) (found : Option String)
  | noShaderName
  | afterShader
  | noSubShader
  | unterminatedShader
  | notSubShader (text : String)
  | notInSubShader (text : String)
  | unterminatedSubShader
  | noPass
  | notInPass (text : String)
  | unterminatedPass
  | unterminatedStage (kind : StageKind)
  | noEntryName (kind : StageKind)
  | noStageText (kind : StageKind)
  | noTagName
  | unterminatedTags
  | badTagValue (name : String)
  | unterminatedBlock (block : StateBlock)
  | unknownProperty (block : StateBlock) (name : String)
  | noTargetIndex
  | notPerTarget (name : String)
  | noStateValue
  | badStateValue (text : String)
  | noNegativeNumber
  | badNumber (text : String)
  | unknownEnum (name : String)
  | notMember (text : String) (type : StateEnum)
  | noMember
  | noComponent
  | componentCount (n : Nat)
  deriving DecidableEq, Repr

namespace Cause

/-- The stage that a cause belongs to. -/
def stage : Cause → Stage
  | .lexeme _ => .scan
  | _ => .parse

/-- What is found where something else is expected. -/
def foundText : Option String → String
  | some text => "'" ++ text ++ "'"
  | none => "end of input"

/-- The wording of a cause. -/
def message : Cause → String
  | .lexeme fault => fault.message
  | .punct c purpose found =>
    "expected '" ++ String.singleton c ++ "' " ++ purpose.message ++ ", found " ++ foundText found
  | .noShaderName => "expected shader name after 'Shader'"
  | .afterShader => "unexpected token after Shader block"
  | .noSubShader => "shader contains no SubShader"
  | .unterminatedShader => "unterminated Shader block"
  | .notSubShader text => "unexpected '" ++ text ++ "', expected SubShader"
  | .notInSubShader text => "unexpected '" ++ text ++ "' in SubShader block"
  | .unterminatedSubShader => "unterminated SubShader block"
  | .noPass => "SubShader has no Pass"
  | .notInPass text => "unexpected '" ++ text ++ "' inside Pass block"
  | .unterminatedPass => "unterminated Pass block"
  | .unterminatedStage kind => "unterminated " ++ kind.spelling ++ " block"
  | .noEntryName kind => "expected entry point name after '" ++ kind.spelling ++ " ='"
  | .noStageText kind => "expected '\x7b' or '=' after '" ++ kind.spelling ++ "'"
  | .noTagName => "expected tag name"
  | .unterminatedTags => "unterminated Tags block"
  | .badTagValue name => "invalid value for tag '" ++ name ++ "'"
  | .unterminatedBlock block => "unterminated " ++ block.keyword.spelling ++ " block"
  | .unknownProperty block name =>
    "unknown " ++ block.keyword.spelling ++ " property '" ++ name ++ "'"
  | .noTargetIndex => "expected render target index"
  | .notPerTarget name => "'" ++ name ++ "' does not take a render target index"
  | .noStateValue => "expected render state value"
  | .badStateValue text => "expected render state value, found '" ++ text ++ "'"
  | .noNegativeNumber => "expected number after '-'"
  | .badNumber text => "invalid number '" ++ text ++ "'"
  | .unknownEnum name => "unknown enum type '" ++ name ++ "'"
  | .notMember text type => "'" ++ text ++ "' is not a member of " ++ type.name
  | .noMember => "expected enum member"
  | .noComponent => "expected number in Color(...)"
  | .componentCount n => "Color takes 3 or 4 components, got " ++ toString n

end Cause

/-- A failure to read a shader. -/
abbrev Error := Failure Cause

/-- The report of a failure. -/
def Error.diagnostic (e : Error) : Diagnostic :=
  .source e.cause.stage e.cause.message e.position

end ShaderPass.Shader
