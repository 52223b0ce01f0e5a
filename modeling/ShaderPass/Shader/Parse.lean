import ShaderPass.Shader.StateParse

/-!
# Shader/Parse — reading the blocks of a shader file

A file holds sub-shaders, between the braces of a shader block or on their own.  A pass is read
item by item; what starts with no keyword is shared text, which reaches as far as braces balance
and no keyword of an item stands outside them.  Directives outside of a pass are dropped with a
notice.
-/

namespace ShaderPass.Shader

open Source (Span)

/-! ## Stages and shared text -/

/-- The start of the brace that closes a block, and what follows it, read `depth` braces inside the
block. -/
def closingBrace (depth : Nat) : List Token → Option (Nat × List Token)
  | [] => none
  | t :: rest =>
    if t.isPunct '{' then closingBrace (depth + 1) rest
    else if t.isPunct '}' then
      match depth with
      | 0 => some (t.span.start, rest)
      | depth + 1 => closingBrace depth rest
    else closingBrace depth rest

theorem length_closingBrace_lt {depth : Nat} {ts rest : List Token} {stop : Nat}
    (h : closingBrace depth ts = some (stop, rest)) : rest.length < ts.length := by
  induction ts generalizing depth with
  | nil => simp [closingBrace] at h
  | cons t ts ih =>
    unfold closingBrace at h
    split at h
    next => exact Nat.lt_succ_of_lt (ih h)
    next =>
      split at h
      next =>
        split at h
        next => obtain ⟨_, rfl⟩ := Prod.mk.inj (Option.some.inj h); exact Nat.lt_succ_self _
        next => exact Nat.lt_succ_of_lt (ih h)
      next => exact Nat.lt_succ_of_lt (ih h)

/-- The text of a stage after its keyword. -/
def readStage (place : Place) (kind : StageKind) (ts : List Token) :
    Except Error (Parsed StageText ts) :=
  match ts with
  | [] => fail place [] (.noStageText kind)
  | t :: rest =>
    if t.isPunct '{' then
      match h : closingBrace 0 rest with
      | none => fail place [] (.unterminatedStage kind)
      | some (stop, after) =>
        .ok ⟨.inline ⟨t.span.stop, stop⟩, after, Nat.lt_succ_of_lt (length_closingBrace_lt h)⟩
    else if t.isPunct '=' then
      match rest with
      | [] => fail place [] (.noEntryName kind)
      | name :: after =>
        if name.kind = .identifier then
          .ok ⟨.entry name.text name.span, eat ';' after, by
            have := length_eat_le ';' after
            simp only [List.length_cons]; omega⟩
        else fail place (name :: after) (.noEntryName kind)
    else fail place (t :: rest) (.noStageText kind)

/-- Whether a token outside braces ends the shared text before it. -/
def endsShared (t : Token) : Bool := t.isPunct '}' || t.keyword?.any Keyword.isPassItem

/-- The depth of braces after a token. -/
def braceDepth (depth : Nat) (t : Token) : Nat :=
  if t.isPunct '{' then depth + 1 else if t.isPunct '}' then depth - 1 else depth

/-- The tokens of shared text after its first ones, read `depth` braces inside it, and the tokens
that follow. -/
def splitShared (depth : Nat) : List Token → List Token × List Token
  | [] => ([], [])
  | t :: rest =>
    if depth = 0 ∧ endsShared t then ([], t :: rest)
    else
      match splitShared (braceDepth depth t) rest with
      | (more, after) => (t :: more, after)

theorem length_splitShared_le (depth : Nat) (ts : List Token) :
    (splitShared depth ts).2.length ≤ ts.length := by
  induction ts generalizing depth with
  | nil => exact Nat.le_refl _
  | cons t ts ih =>
    unfold splitShared
    split
    · exact Nat.le_refl _
    · exact Nat.le_succ_of_le (ih _)

/-- Whether a token can be the type of a declaration. -/
def isTypeName (kind : TokenKind) : Bool :=
  match kind with
  | .word .type | .identifier => true
  | _ => false

/-- The names that are declared as functions: outside braces, after a type and before a
parenthesis. -/
def declaredFunctions (depth : Nat) : List Token → List String
  | before :: t :: rest =>
    let more := declaredFunctions (braceDepth depth before) (t :: rest)
    if braceDepth depth before = 0 ∧ t.kind = .identifier ∧ isTypeName before.kind ∧
        startsWith '(' rest then t.text :: more
    else more
  | _ => []

/-- The stretch from the first to the last of some tokens. -/
def spanOf (first : Token) (more : List Token) : Span :=
  first.span.through ((first :: more).getLast (List.cons_ne_nil _ _)).span

/-- Shared text, from its first token on. -/
def readShared (t : Token) (rest : List Token) : Parsed PassItem (t :: rest) :=
  let split := splitShared (braceDepth 0 t) rest
  ⟨.shared (spanOf t split.1) (declaredFunctions 0 (t :: split.1)), split.2,
    Nat.lt_succ_of_le (length_splitShared_le _ rest)⟩

/-! ## Passes -/

/-- What warns of a second text for a stage. -/
def repeatNotice (place : Place) (seen : List StageKind) (kind : StageKind) (ts : List Token) :
    List Notice :=
  if kind ∈ seen then [⟨.stageRepeated kind.spelling, place.here ts⟩] else []

/-- The item that a keyword begins, after the keyword. -/
def readKeywordItem (place : Place) (seen : List StageKind) (k : Keyword) (t : Token)
    (rest : List Token) : Reported (Parsed PassItem (t :: rest)) :=
  let stage (kind : StageKind) : Reported (Parsed PassItem (t :: rest)) := do
    Reported.notify (repeatNotice place seen kind (t :: rest))
    let p ← readStage place kind rest
    return (p.map (.stage kind)).afterHead
  let states (block : StateBlock) : Reported (Parsed PassItem (t :: rest)) := do
    let p ← readStates place block rest
    return (p.map .states).afterHead
  match k with
  | .tags => do
    let p ← readTags place rest
    return (p.map .tags).afterHead
  | .blendState => states .blend
  | .depthState => states .depth
  | .stencilState => states .stencil
  | .rasterState => states .raster
  | .renderQueueType => do
    let p ← readQueueType place rest
    return (p.map fun entry => .states [entry]).afterHead
  | .vertexShader => stage .vertex
  | .fragmentShader => stage .fragment
  | .shader | .subShader | .pass => ⟨fail place (t :: rest) (.notInPass t.text), []⟩

/-- One item of a pass. -/
def readPassItem (place : Place) (seen : List StageKind) (t : Token) (rest : List Token) :
    Reported (Parsed PassItem (t :: rest)) :=
  match t.keyword? with
  | some k => readKeywordItem place seen k t rest
  | none => pure (readShared t rest)

/-- The stages that an item gives the text of. -/
def PassItem.stageKinds : PassItem → List StageKind
  | .stage kind _ => [kind]
  | _ => []

/-- The items of a pass up to the closing brace, and the end of the brace. -/
def readPassItems (place : Place) (seen : List StageKind) (ts : List Token) :
    Reported (Parsed (List PassItem × Nat) ts) :=
  match ts with
  | [] => ⟨fail place [] .unterminatedPass, []⟩
  | t :: rest =>
    if t.isPunct '}' then pure (.ofHead ([], t.span.stop))
    else do
      let item ← readPassItem place seen t rest
      let more ← readPassItems place (item.value.stageKinds ++ seen) item.rest
      return ⟨(item.value :: more.value.1, more.value.2), more.rest,
        Nat.lt_trans more.shorter item.shorter⟩
termination_by ts.length
decreasing_by exact item.shorter

/-- A pass, from its keyword on. -/
def readPass (place : Place) (t : Token) (rest : List Token) :
    Reported (Parsed Pass (t :: rest)) := do
  let (name, ⟨start, hs⟩) := optionalName rest
  let brace ← expect place '{' .openPass start
  let body ← readPassItems place [] brace.rest
  return ⟨⟨name, body.value.1, ⟨t.span.start, body.value.2⟩⟩, body.rest, by
    have := body.shorter; have := brace.shorter
    simp only [List.length_cons]; omega⟩

/-! ## Sub-shaders -/

/-- The tokens after the directives that come first, and what warns of these. -/
def skipDirectives (place : Place) : List Token → List Notice × List Token
  | [] => ([], [])
  | t :: rest =>
    if t.kind = .directive then
      let (notices, after) := skipDirectives place rest
      (⟨.strayDirective t.text, place.here (t :: rest)⟩ :: notices, after)
    else ([], t :: rest)

theorem length_skipDirectives_le (place : Place) (ts : List Token) :
    (skipDirectives place ts).2.length ≤ ts.length := by
  induction ts with
  | nil => exact Nat.le_refl _
  | cons t ts ih =>
    unfold skipDirectives
    split
    · exact Nat.le_succ_of_le ih
    · exact Nat.le_refl _

/-- One item of a sub-shader. -/
def readSubShaderItem (place : Place) (t : Token) (rest : List Token) :
    Reported (Parsed SubShaderItem (t :: rest)) :=
  match t.keyword? with
  | some .tags => do
    let p ← readTags place rest
    return (p.map .tags).afterHead
  | some .pass => do
    let p ← readPass place t rest
    return p.map .pass
  | _ => ⟨fail place (t :: rest) (.notInSubShader t.text), []⟩

/-- The items of a sub-shader up to the closing brace, and the end of the brace. -/
def readSubShaderItems (place : Place) (ts : List Token) :
    Reported (Parsed (List SubShaderItem × Nat) ts) := do
  Reported.notify (skipDirectives place ts).1
  match _h : (skipDirectives place ts).2 with
  | [] => fail place [] .unterminatedSubShader
  | t :: rest =>
    have hs : (t :: rest).length ≤ ts.length := _h ▸ length_skipDirectives_le place ts
    if t.isPunct '}' then return (Parsed.ofHead ([], t.span.stop)).widen hs
    else
      let item ← readSubShaderItem place t rest
      let more ← readSubShaderItems place item.rest
      return ⟨(item.value :: more.value.1, more.value.2), more.rest,
        Nat.lt_of_lt_of_le (Nat.lt_trans more.shorter item.shorter) hs⟩
termination_by ts.length
decreasing_by exact Nat.lt_of_lt_of_le item.shorter hs

/-- A sub-shader, from its keyword on; it has to hold a pass. -/
def readSubShader (place : Place) (t : Token) (rest : List Token) :
    Reported (Parsed SubShader (t :: rest)) := do
  let (name, ⟨start, hs⟩) := optionalName rest
  let brace ← expect place '{' .openSubShader start
  let body ← readSubShaderItems place brace.rest
  let subShader : SubShader := ⟨name, body.value.1, ⟨t.span.start, body.value.2⟩⟩
  if subShader.passes.isEmpty then fail place (t :: rest) .noPass
  else
    return ⟨subShader, body.rest, by
      have := body.shorter; have := brace.shorter
      simp only [List.length_cons]; omega⟩

/-! ## Files -/

/-- The sub-shaders of a file, and the tokens after them: the closing brace and what follows it
where a shader block encloses them, none where none does. -/
def readSubShaders (place : Place) (enclosed : Bool) (ts : List Token) :
    Reported (List SubShader × List Token) := do
  Reported.notify (skipDirectives place ts).1
  match _h : (skipDirectives place ts).2 with
  | [] => if enclosed then fail place [] .unterminatedShader else return ([], [])
  | t :: rest =>
    have _hs : (t :: rest).length ≤ ts.length := _h ▸ length_skipDirectives_le place ts
    if enclosed ∧ t.isPunct '}' then return ([], t :: rest)
    else if t.keyword? = some .subShader then
      let first ← readSubShader place t rest
      let (more, after) ← readSubShaders place enclosed first.rest
      return (first.value :: more, after)
    else fail place (t :: rest) (.notSubShader t.text)
termination_by ts.length
decreasing_by exact Nat.lt_of_lt_of_le first.shorter _hs

/-- A shader block after its keyword, and the tokens after it. -/
def readShaderBlock (place : Place) (ts : List Token) : Reported (Tree × List Token) := do
  match ts with
  | [] => fail place [] .noShaderName
  | t :: rest =>
    if t.kind = .string then
      let brace ← expect place '{' .afterShaderName rest
      let (subShaders, stop) ← readSubShaders place true brace.rest
      let closing ← expect place '}' .closeShader stop
      Reported.notify (skipDirectives place closing.rest).1
      match (skipDirectives place closing.rest).2 with
      | [] => return (⟨some t.unquoted, subShaders⟩, [])
      | u :: us => fail place (u :: us) .afterShader
    else fail place (t :: rest) .noShaderName

/-- The blocks of a file. -/
def readFile (place : Place) (ts : List Token) : Reported (Tree × List Token) := do
  Reported.notify (skipDirectives place ts).1
  match (skipDirectives place ts).2 with
  | t :: rest =>
    if t.keyword? = some .shader then readShaderBlock place rest
    else
      let (subShaders, after) ← readSubShaders place false (t :: rest)
      return (⟨none, subShaders⟩, after)
  | [] => return (⟨none, []⟩, [])

/-- A file, which has to hold a sub-shader. -/
def readTokens (place : Place) (ts : List Token) : Reported Tree := do
  let (tree, after) ← readFile place ts
  if tree.subShaders.isEmpty then fail place after .noSubShader else return tree

/-- The blocks of a text with a source map. -/
def parse (text : String) (map : Source.Map) : Reported Tree :=
  let place := Place.ofText text map
  match tokenize text with
  | .error (fault, location) => ⟨.error ⟨.lexeme fault, place.position location.offset⟩, []⟩
  | .ok ts => readTokens place ts

end ShaderPass.Shader
