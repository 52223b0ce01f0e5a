import ShaderPass.Source.Span
import ShaderPass.RenderState

/-!
# Shader/Tree — the blocks of a shader file

A shader holds sub-shaders and these hold passes, each with the **items** that stand in it, in
source order.  What a block means is read off its items: of tags and states with one name, and of
stages of one kind, the last one counts.  Text in the shading language is not looked into and is
kept as the stretch of text it stands in.
-/

namespace ShaderPass.Shader

open Source (Span)

/-- The value of a tag. -/
inductive TagValue
  | string (text : String)
  | number (value : Number.Double)
  | bool (value : Bool)
  deriving DecidableEq, Repr

/-- A tag with its value. -/
abbrev TagEntry := String × TagValue

/-- The tags of a block. -/
abbrev Tags := Dictionary String TagValue

/-- The two stages of a pass. -/
inductive StageKind
  | vertex
  | fragment
  deriving DecidableEq, Repr

/-- The keyword of a stage. -/
def StageKind.keyword : StageKind → Keyword
  | .vertex => .vertexShader
  | .fragment => .fragmentShader

/-- A stage as written. -/
def StageKind.spelling (k : StageKind) : String := k.keyword.spelling

/-- Where the text of a stage is: between braces, or in a function of the shared text. -/
inductive StageText
  | inline (span : Span)
  | entry (name : String) (span : Span)
  deriving DecidableEq, Repr

/-- What can stand in a pass. -/
inductive PassItem
  | tags (entries : List TagEntry)
  | states (entries : List StateEntry)
  | stage (kind : StageKind) (text : StageText)
  | shared (span : Span) (functions : List String)
  deriving DecidableEq, Repr

/-- A pass. -/
structure Pass where
  name : Option String
  items : List PassItem
  span : Span
  deriving DecidableEq, Repr

namespace PassItem

/-- The tags that an item sets. -/
def tagEntries : PassItem → List TagEntry
  | .tags entries => entries
  | _ => []

/-- The states that an item assigns. -/
def stateEntries : PassItem → List StateEntry
  | .states entries => entries
  | _ => []

/-- The text of a stage that an item gives. -/
def stage? (kind : StageKind) : PassItem → Option StageText
  | .stage k text => if k = kind then some text else none
  | _ => none

/-- The stretch of shared text that an item is. -/
def span? : PassItem → Option Span
  | .shared span _ => some span
  | _ => none

/-- The functions that an item declares. -/
def functionNames : PassItem → List String
  | .shared _ functions => functions
  | _ => []

end PassItem

namespace Pass

/-- The tags of a pass. -/
def tags (p : Pass) : Tags := .ofList (p.items.flatMap (·.tagEntries))

/-- The render states of a pass. -/
def states (p : Pass) : States := .ofList (p.items.flatMap (·.stateEntries))

/-- The text of a stage. -/
def stage? (p : Pass) (kind : StageKind) : Option StageText :=
  (p.items.filterMap (·.stage? kind)).getLast?

/-- The stretches of text that both stages share. -/
def shared (p : Pass) : List Span := p.items.filterMap (·.span?)

/-- The functions declared in the shared text. -/
def functions (p : Pass) : List String := (p.items.flatMap (·.functionNames)).eraseDups

end Pass

/-- What can stand in a sub-shader. -/
inductive SubShaderItem
  | tags (entries : List TagEntry)
  | pass (p : Pass)
  deriving DecidableEq, Repr

/-- A sub-shader. -/
structure SubShader where
  name : Option String
  items : List SubShaderItem
  span : Span
  deriving DecidableEq, Repr

namespace SubShaderItem

/-- The tags that an item sets. -/
def tagEntries : SubShaderItem → List TagEntry
  | .tags entries => entries
  | .pass _ => []

/-- The pass that an item is. -/
def pass? : SubShaderItem → Option Pass
  | .tags _ => none
  | .pass p => some p

end SubShaderItem

namespace SubShader

/-- The tags of a sub-shader. -/
def tags (s : SubShader) : Tags := .ofList (s.items.flatMap (·.tagEntries))

/-- The passes of a sub-shader. -/
def passes (s : SubShader) : List Pass := s.items.filterMap (·.pass?)

end SubShader

/-- A shader file. -/
structure Tree where
  name : Option String
  subShaders : List SubShader
  deriving DecidableEq, Repr

end ShaderPass.Shader
