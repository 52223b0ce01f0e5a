import ShaderPass.Text.Slice
import ShaderPass.Shader.Parse

/-!
# Assembly — the sources of the stages of each pass

A stage is compiled from the shared text of its pass and its own.  Its own is what stands between
its braces, or a `main` that calls its entry point, which the shared text has to declare.  A pass
needs both stages; of two faults the one in the earlier pass is reported, and in one pass that of the
vertex stage.
-/

namespace ShaderPass

open Source (Span)
open Shader (Pass StageKind StageText)

namespace Assembly

/-- A cause of failure. -/
inductive Cause
  | noStage (pass : String) (kind : StageKind)
  | undeclaredEntry (pass : String) (kind : StageKind) (entry : String)
  deriving DecidableEq, Repr

/-- The wording of a cause. -/
def Cause.message : Cause → String
  | .noStage pass kind => "Pass '" ++ pass ++ "' has no " ++ kind.spelling
  | .undeclaredEntry pass kind entry =>
    kind.spelling ++ " entry point '" ++ entry ++ "' is not declared as a function in Pass '" ++
      pass ++ "'"

/-- A failure to assemble a pass. -/
abbrev Error := Failure Cause

/-- The report of a failure. -/
def Error.diagnostic (e : Error) : Diagnostic := .source .assembly e.cause.message e.position

end Assembly

/-- The source of a stage, and the stretch of the expanded text its own text or the name of its
entry point stands in. -/
structure StageSource where
  text : String
  span : Span
  deriving DecidableEq, Repr

/-- A pass that can be rendered. -/
structure CompiledPass where
  name : String
  vertex : StageSource
  fragment : StageSource
  tags : Shader.Tags
  states : States
  deriving DecidableEq, Repr

/-- A sub-shader with its passes in order. -/
structure CompiledSubShader where
  name : Option String
  tags : Shader.Tags
  passes : List CompiledPass
  deriving DecidableEq, Repr

/-- A compiled shader, with the text it was read from and the origin of that. -/
structure CompiledShader where
  name : Option String
  subShaders : List CompiledSubShader
  expanded : String
  sourceMap : Source.Map
  deriving DecidableEq, Repr

/-- The passes of a shader, in order. -/
def CompiledShader.passes (s : CompiledShader) : List CompiledPass :=
  s.subShaders.flatMap (·.passes)

namespace Assembly

/-- The name of a pass that has none. -/
def defaultPassName : String := "Default"

/-- The name that a pass is known by. -/
def passName (p : Pass) : String := p.name.getD defaultPassName

/-- The text of a stretch; a stretch that is not there is empty. -/
def slice (text : String) (span : Span) : String :=
  (Text.slice? text span.start span.stop).getD ""

/-- The shared text of a pass, one stretch on a line. -/
def sharedText (text : String) (p : Pass) : String :=
  String.intercalate "\n" (p.shared.map (slice text))

/-- The `main` that calls an entry point. -/
def mainCalling (entry : String) : String := "void main() \x7b\n    " ++ entry ++ "();\n\x7d\n"

/-- The shared text, if there is any, and on the next line the text of a stage. -/
def joinShared (shared own : String) : String :=
  if shared = "" then own else shared ++ "\n" ++ own

/-- The source of one stage of a pass. -/
def stageSource (text : String) (position : Nat → Source.Position) (p : Pass) (kind : StageKind) :
    Except Error StageSource :=
  match p.stage? kind with
  | none => .error ⟨.noStage (passName p) kind, position p.span.start⟩
  | some (.inline span) => .ok ⟨joinShared (sharedText text p) (slice text span), span⟩
  | some (.entry name span) =>
    if name ∈ p.functions then .ok ⟨joinShared (sharedText text p) (mainCalling name), span⟩
    else .error ⟨.undeclaredEntry (passName p) kind name, position span.start⟩

/-- A pass with the sources of both its stages. -/
def assemblePass (text : String) (position : Nat → Source.Position) (p : Pass) :
    Except Error CompiledPass := do
  let vertex ← stageSource text position p .vertex
  let fragment ← stageSource text position p .fragment
  return ⟨passName p, vertex, fragment, p.tags, p.states⟩

/-- A sub-shader with all its passes. -/
def assembleSubShader (text : String) (position : Nat → Source.Position) (s : Shader.SubShader) :
    Except Error CompiledSubShader := do
  let passes ← s.passes.mapM (assemblePass text position)
  return ⟨s.name, s.tags, passes⟩

/-- The compiled shader of a text with a source map and with the blocks read from it. -/
def assemble (text : String) (map : Source.Map) (tree : Shader.Tree) :
    Except Error CompiledShader := do
  let subShaders ← tree.subShaders.mapM (assembleSubShader text map.position)
  return ⟨tree.name, subShaders, text, map⟩

end Assembly

end ShaderPass
