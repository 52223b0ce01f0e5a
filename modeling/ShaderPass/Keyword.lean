/-!
# Keyword — the words with a meaning of their own

The **structural** keywords build the blocks of a shader file.  The other classes come from the
shading language and matter only where a declaration has to be told from a use.  A word is in one
class at most (`classify`), and letter case counts.
-/

namespace ShaderPass

/-- The words that build the blocks of a shader file. -/
inductive Keyword
  | shader
  | subShader
  | pass
  | tags
  | blendState
  | depthState
  | stencilState
  | rasterState
  | renderQueueType
  | vertexShader
  | fragmentShader
  deriving DecidableEq, Repr

namespace Keyword

/-- A keyword as written. -/
def spelling : Keyword → String
  | .shader => "Shader"
  | .subShader => "SubShader"
  | .pass => "Pass"
  | .tags => "Tags"
  | .blendState => "BlendState"
  | .depthState => "DepthState"
  | .stencilState => "StencilState"
  | .rasterState => "RasterState"
  | .renderQueueType => "RenderQueueType"
  | .vertexShader => "VertexShader"
  | .fragmentShader => "FragmentShader"

/-- All keywords. -/
def all : List Keyword :=
  [.shader, .subShader, .pass, .tags, .blendState, .depthState, .stencilState, .rasterState,
    .renderQueueType, .vertexShader, .fragmentShader]

/-- Whether the keyword can start an item inside a pass. -/
def isPassItem : Keyword → Bool
  | .shader | .subShader | .pass => false
  | _ => true

/-- The keyword of a spelling. -/
def ofString? (word : String) : Option Keyword := all.find? (·.spelling = word)

/-- Every keyword is listed. -/
theorem mem_all (k : Keyword) : k ∈ all := by cases k <;> decide

/-- Every keyword is read back from its spelling. -/
@[simp] theorem ofString?_spelling (k : Keyword) : ofString? k.spelling = some k := by
  cases k <;> decide

end Keyword

/-- The classes of words. -/
inductive WordClass
  | structural (k : Keyword)
  | boolean (value : Bool)
  | type
  | qualifier
  | control
  deriving DecidableEq, Repr

namespace WordClass

/-- The type names of the shading language. -/
def types : List String :=
  ["void", "bool", "int", "uint", "float", "double", "vec2", "vec3", "vec4", "bvec2", "bvec3",
    "bvec4", "ivec2", "ivec3", "ivec4", "uvec2", "uvec3", "uvec4", "dvec2", "dvec3", "dvec4",
    "mat2", "mat3", "mat4", "mat2x2", "mat2x3", "mat2x4", "mat3x2", "mat3x3", "mat3x4", "mat4x2",
    "mat4x3", "mat4x4", "sampler2D", "sampler3D", "samplerCube", "sampler2DShadow",
    "samplerCubeShadow", "sampler2DArray", "sampler2DArrayShadow", "isampler2D", "usampler2D",
    "struct"]

/-- The words that qualify a declaration. -/
def qualifiers : List String :=
  ["const", "uniform", "attribute", "varying", "in", "out", "inout", "buffer", "shared", "layout",
    "centroid", "flat", "smooth", "noperspective", "invariant", "precise", "precision", "highp",
    "mediump", "lowp"]

/-- The words that direct the flow of control. -/
def controls : List String :=
  ["if", "else", "for", "while", "do", "switch", "case", "default", "break", "continue", "return",
    "discard"]

/-- The class of a word; `none` for a plain identifier. -/
def classify (word : String) : Option WordClass :=
  match Keyword.ofString? word with
  | some k => some (.structural k)
  | none =>
    if word = "true" then some (.boolean true)
    else if word = "false" then some (.boolean false)
    else if word ∈ types then some .type
    else if word ∈ qualifiers then some .qualifier
    else if word ∈ controls then some .control
    else none

end WordClass

end ShaderPass
