import ShaderPass.Dictionary
import ShaderPass.Keyword
import ShaderPass.Number.Binary

/-!
# RenderState — what a pass sets besides its shaders

A render state has an **element**, which its block and its key name, and for some blend elements the
index of a render target.  Its value is a constant or the name of a **variable** that is looked up
when the pass is drawn.  `States` keeps constants and variables apart; assigning a key in one form
drops what it had in the other.
-/

namespace ShaderPass

/-- The blocks that render states are written in. -/
inductive StateBlock
  | blend
  | depth
  | stencil
  | raster
  deriving DecidableEq, Repr

namespace StateBlock

/-- The keyword of a block. -/
def keyword : StateBlock → Keyword
  | .blend => .blendState
  | .depth => .depthState
  | .stencil => .stencilState
  | .raster => .rasterState

/-- The block of a keyword. -/
def ofKeyword? : Keyword → Option StateBlock
  | .blendState => some .blend
  | .depthState => some .depth
  | .stencilState => some .stencil
  | .rasterState => some .raster
  | _ => none

/-- The name of a block. -/
def name : StateBlock → String
  | .blend => "Blend"
  | .depth => "Depth"
  | .stencil => "Stencil"
  | .raster => "Raster"

/-- A block is found by its keyword. -/
@[simp] theorem ofKeyword?_keyword (b : StateBlock) : ofKeyword? b.keyword = some b := by
  cases b <;> rfl

end StateBlock

/-- What a render state sets. -/
inductive StateElement
  | blendEnabled
  | colorBlendOperation
  | alphaBlendOperation
  | sourceColorBlendFactor
  | destinationColorBlendFactor
  | sourceAlphaBlendFactor
  | destinationAlphaBlendFactor
  | colorWriteMask
  | blendColor
  | alphaToCoverage
  | depthEnabled
  | depthWriteEnabled
  | depthCompareFunction
  | stencilEnabled
  | stencilReferenceValue
  | stencilMask
  | stencilWriteMask
  | stencilCompareFunctionFront
  | stencilCompareFunctionBack
  | stencilPassOperationFront
  | stencilPassOperationBack
  | stencilFailOperationFront
  | stencilFailOperationBack
  | stencilZFailOperationFront
  | stencilZFailOperationBack
  | cullMode
  | depthBias
  | slopeScaledDepthBias
  | renderQueueType
  deriving DecidableEq, Repr

namespace StateElement

/-- The name of an element, which no other element has. -/
def name : StateElement → String
  | .blendEnabled => "BlendEnabled"
  | .colorBlendOperation => "ColorBlendOperation"
  | .alphaBlendOperation => "AlphaBlendOperation"
  | .sourceColorBlendFactor => "SourceColorBlendFactor"
  | .destinationColorBlendFactor => "DestinationColorBlendFactor"
  | .sourceAlphaBlendFactor => "SourceAlphaBlendFactor"
  | .destinationAlphaBlendFactor => "DestinationAlphaBlendFactor"
  | .colorWriteMask => "ColorWriteMask"
  | .blendColor => "BlendColor"
  | .alphaToCoverage => "AlphaToCoverage"
  | .depthEnabled => "DepthEnabled"
  | .depthWriteEnabled => "DepthWriteEnabled"
  | .depthCompareFunction => "DepthCompareFunction"
  | .stencilEnabled => "StencilEnabled"
  | .stencilReferenceValue => "StencilReferenceValue"
  | .stencilMask => "StencilMask"
  | .stencilWriteMask => "StencilWriteMask"
  | .stencilCompareFunctionFront => "StencilCompareFunctionFront"
  | .stencilCompareFunctionBack => "StencilCompareFunctionBack"
  | .stencilPassOperationFront => "StencilPassOperationFront"
  | .stencilPassOperationBack => "StencilPassOperationBack"
  | .stencilFailOperationFront => "StencilFailOperationFront"
  | .stencilFailOperationBack => "StencilFailOperationBack"
  | .stencilZFailOperationFront => "StencilZFailOperationFront"
  | .stencilZFailOperationBack => "StencilZFailOperationBack"
  | .cullMode => "CullMode"
  | .depthBias => "DepthBias"
  | .slopeScaledDepthBias => "SlopeScaledDepthBias"
  | .renderQueueType => "RenderQueueType"

/-- The keys of a block, and the elements they name. -/
def keys : StateBlock → List (String × StateElement)
  | .blend =>
    [("Enabled", .blendEnabled), ("ColorBlendOperation", .colorBlendOperation),
      ("AlphaBlendOperation", .alphaBlendOperation),
      ("SourceColorBlendFactor", .sourceColorBlendFactor),
      ("DestinationColorBlendFactor", .destinationColorBlendFactor),
      ("SourceAlphaBlendFactor", .sourceAlphaBlendFactor),
      ("DestinationAlphaBlendFactor", .destinationAlphaBlendFactor),
      ("ColorWriteMask", .colorWriteMask), ("BlendColor", .blendColor),
      ("AlphaToCoverage", .alphaToCoverage)]
  | .depth =>
    [("Enabled", .depthEnabled), ("WriteEnabled", .depthWriteEnabled),
      ("CompareFunction", .depthCompareFunction)]
  | .stencil =>
    [("Enabled", .stencilEnabled), ("ReferenceValue", .stencilReferenceValue),
      ("Mask", .stencilMask), ("WriteMask", .stencilWriteMask),
      ("CompareFunctionFront", .stencilCompareFunctionFront),
      ("CompareFunctionBack", .stencilCompareFunctionBack),
      ("PassOperationFront", .stencilPassOperationFront),
      ("PassOperationBack", .stencilPassOperationBack),
      ("FailOperationFront", .stencilFailOperationFront),
      ("FailOperationBack", .stencilFailOperationBack),
      ("ZFailOperationFront", .stencilZFailOperationFront),
      ("ZFailOperationBack", .stencilZFailOperationBack)]
  | .raster =>
    [("CullMode", .cullMode), ("DepthBias", .depthBias),
      ("SlopeScaledDepthBias", .slopeScaledDepthBias)]

/-- The element that a key names in a block. -/
def lookup? (block : StateBlock) (key : String) : Option StateElement := (keys block).lookup key

/-- Whether the element is set for each render target on its own. -/
def isPerTarget : StateElement → Bool
  | .blendEnabled | .colorBlendOperation | .alphaBlendOperation | .sourceColorBlendFactor
  | .destinationColorBlendFactor | .sourceAlphaBlendFactor | .destinationAlphaBlendFactor
  | .colorWriteMask => true
  | _ => false

end StateElement

/-- The types that literals such as `CullMode.Off` belong to. -/
inductive StateEnum
  | blendFactor
  | blendOperation
  | compareFunction
  | stencilOperation
  | cullMode
  | renderQueueType
  | colorWriteMask
  deriving DecidableEq, Repr

namespace StateEnum

/-- The name of a type. -/
def name : StateEnum → String
  | .blendFactor => "BlendFactor"
  | .blendOperation => "BlendOperation"
  | .compareFunction => "CompareFunction"
  | .stencilOperation => "StencilOperation"
  | .cullMode => "CullMode"
  | .renderQueueType => "RenderQueueType"
  | .colorWriteMask => "ColorWriteMask"

/-- All types. -/
def all : List StateEnum :=
  [.blendFactor, .blendOperation, .compareFunction, .stencilOperation, .cullMode,
    .renderQueueType, .colorWriteMask]

/-- The type of a name. -/
def ofName? (word : String) : Option StateEnum := all.find? (·.name = word)

/-- The members of a type. -/
def members : StateEnum → List String
  | .blendFactor =>
    ["Zero", "One", "SourceColor", "OneMinusSourceColor", "DestinationColor",
      "OneMinusDestinationColor", "SourceAlpha", "OneMinusSourceAlpha", "DestinationAlpha",
      "OneMinusDestinationAlpha", "SourceAlphaSaturate", "BlendColor", "OneMinusBlendColor"]
  | .blendOperation => ["Add", "Subtract", "ReverseSubtract", "Min", "Max"]
  | .compareFunction =>
    ["Never", "Less", "Equal", "LessEqual", "Greater", "NotEqual", "GreaterEqual", "Always"]
  | .stencilOperation =>
    ["Keep", "Zero", "Replace", "IncrementSaturate", "DecrementSaturate", "Invert",
      "IncrementWrap", "DecrementWrap"]
  | .cullMode => ["Off", "Front", "Back"]
  | .renderQueueType => ["Opaque", "AlphaTest", "Transparent"]
  | .colorWriteMask => ["None", "Red", "Green", "Blue", "Alpha", "All"]

/-- Whether a word is a member of a type. -/
def hasMember (e : StateEnum) (word : String) : Bool := e.members.contains word

/-- Every type is found by its name. -/
@[simp] theorem ofName?_name (e : StateEnum) : ofName? e.name = some e := by cases e <;> decide

end StateEnum

/-- An element, and the index of the render target it is set for. -/
structure StateKey where
  element : StateElement
  target : Nat
  deriving DecidableEq, Repr

/-- A color with an opacity. -/
structure Color where
  red : Number.Single
  green : Number.Single
  blue : Number.Single
  alpha : Number.Single
  deriving DecidableEq, Repr

/-- A value that is known when the pass is compiled. -/
inductive StateConstant
  | bool (value : Bool)
  | number (value : Number.Double)
  | string (text : String)
  | color (value : Color)
  | enum (type : StateEnum) (member : String)
  deriving DecidableEq, Repr

/-- A constant, or the name of a variable that is looked up later. -/
inductive StateValue
  | constant (value : StateConstant)
  | variable (name : String)
  deriving DecidableEq, Repr

/-- An assignment of a value to a key. -/
abbrev StateEntry := StateKey × StateValue

/-- The values assigned so far: the constants, and the names of the variables, each on their own. -/
structure States where
  constants : Dictionary StateKey StateConstant
  names : Dictionary StateKey String
  deriving DecidableEq, Repr, Inhabited

namespace States

/-- No values. -/
def empty : States := ⟨.empty, .empty⟩

/-- Assigns a value to a key, which loses the value that it had, in whichever form. -/
def insert (s : States) (key : StateKey) : StateValue → States
  | .constant value => ⟨s.constants.insert key value, s.names.erase key⟩
  | .variable name => ⟨s.constants.erase key, s.names.insert key name⟩

/-- Assigns values one after the other. -/
def insertAll (s : States) (entries : List StateEntry) : States :=
  entries.foldl (fun s entry => s.insert entry.1 entry.2) s

/-- The values that some entries assign, in order. -/
def ofList (entries : List StateEntry) : States := empty.insertAll entries

/-- The value of a key. -/
def get? (s : States) (key : StateKey) : Option StateValue :=
  match s.constants.get? key with
  | some value => some (.constant value)
  | none => (s.names.get? key).map .variable

/-- The number of keys with a constant. -/
def constantCount (s : States) : Nat := s.constants.size

/-- The number of keys with a variable. -/
def variableCount (s : States) : Nat := s.names.size

/-- The number of values. -/
def size (s : States) : Nat := s.constantCount + s.variableCount

/-- All keys with their values, those with constants first. -/
def entries (s : States) : List StateEntry :=
  s.constants.entries.map (fun entry => (entry.1, .constant entry.2)) ++
    s.names.entries.map fun entry => (entry.1, .variable entry.2)

end States

end ShaderPass
