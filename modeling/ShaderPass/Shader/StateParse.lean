import ShaderPass.Number.Literal
import ShaderPass.Shader.Reading

/-!
# Shader/StateParse — reading tags and render states

A block of tags or of render states holds entries between braces, each a name, an equals sign and a
value.  A comma or a semicolon may follow an entry.  The value of a state is a constant or the name
of a variable; names with a dot in them are members of a type.
-/

namespace ShaderPass.Shader

open Number (Double Single)

/-- The number that a token writes, with its sign. -/
def signedNumber (negative : Bool) (t : Token) : Option Double :=
  (Number.readLiteral t.text).map fun x => if negative then x.negate else x

/-! ## Tags -/

/-- The value of a tag. -/
def tagValue? (negative : Bool) (t : Token) : Option TagValue :=
  match t.kind with
  | .string => if negative then none else some (.string t.unquoted)
  | .number => (signedNumber negative t).map .number
  | .word (.boolean b) => if negative then none else some (.bool b)
  | _ => none

/-- The value of the tag of a name, which a minus sign may precede. -/
def readTagValue (place : Place) (name : String) (ts : List Token) :
    Except Error (Parsed TagValue ts) :=
  match eat '-' ts, length_eat_le '-' ts with
  | [], _ => fail place [] (.badTagValue name)
  | t :: rest, h =>
    match tagValue? (startsWith '-' ts) t with
    | some value => .ok ((Parsed.ofHead value).widen h)
    | none => fail place (t :: rest) (.badTagValue name)

/-- The tags up to the closing brace. -/
def readTagEntries (place : Place) (ts : List Token) : Except Error (Parsed (List TagEntry) ts) :=
  match ts with
  | [] => fail place [] .unterminatedTags
  | t :: rest =>
    if t.isPunct '}' then .ok (.ofHead [])
    else if t.isWord then do
      let equals ← expect place '=' .afterTagName rest
      let value ← readTagValue place t.text equals.rest
      let more ← readTagEntries place (eatEither ',' ';' value.rest)
      have h := length_eatEither_le ',' ';' value.rest
      return ⟨(t.text, value.value) :: more.value, more.rest, by
        have := more.shorter; have := value.shorter; have := equals.shorter
        simp only [List.length_cons]; omega⟩
    else fail place (t :: rest) .noTagName
termination_by ts.length
decreasing_by
  have h := length_eatEither_le ',' ';' value.rest
  have := value.shorter; have := equals.shorter
  simp only [List.length_cons]; omega

/-- A block of tags after its keyword. -/
def readTags (place : Place) (ts : List Token) : Except Error (Parsed (List TagEntry) ts) := do
  let brace ← expect place '{' .afterTags ts
  let entries ← readTagEntries place brace.rest
  return entries.widen (Nat.le_of_lt brace.shorter)

/-! ## Values of states -/

/-- The components of a color up to the closing parenthesis. -/
def readComponents (place : Place) (ts : List Token) : Except Error (Parsed (List Single) ts) :=
  match _h : eat '-' ts with
  | [] => fail place [] .noComponent
  | t :: rest =>
    match signedNumber (startsWith '-' ts) t with
    | none => fail place (t :: rest) .noComponent
    | some x =>
      have h : rest.length < ts.length := by
        have := length_eat_le '-' ts
        rw [_h, List.length_cons] at this
        exact this
      match startsWith ')' rest with
      | true => .ok ⟨[x.toSingle], eat ')' rest, Nat.lt_of_le_of_lt (length_eat_le ')' rest) h⟩
      | false => do
        let comma ← expect place ',' .betweenComponents rest
        let more ← readComponents place comma.rest
        return ⟨x.toSingle :: more.value, more.rest, by
          have := more.shorter; have := comma.shorter; omega⟩
termination_by ts.length
decreasing_by
  have := comma.shorter; omega

/-- A color after its opening parenthesis; a missing opacity is full. -/
def readColor (place : Place) (ts : List Token) : Except Error (Parsed StateValue ts) := do
  let components ← readComponents place ts
  match components.value with
  | [r, g, b] => return components.map fun _ => .constant (.color ⟨r, g, b, .one⟩)
  | [r, g, b, a] => return components.map fun _ => .constant (.color ⟨r, g, b, a⟩)
  | cs => fail place components.rest (.componentCount cs.length)

/-- A member of a type after the dot. -/
def readMember (place : Place) (type : StateEnum) (ts : List Token) :
    Except Error (Parsed StateValue ts) :=
  match ts with
  | t :: rest =>
    if t.kind = .identifier ∧ type.hasMember t.text then
      .ok (.ofHead (.constant (.enum type t.text)))
    else fail place (t :: rest) (.notMember t.text type)
  | [] => fail place [] .noMember

/-- A literal of a type that a word and a dot name. -/
def readEnum (place : Place) (t : Token) (rest : List Token) :
    Except Error (Parsed StateValue (t :: rest)) :=
  match StateEnum.ofName? t.text with
  | none => fail place (t :: rest) (.unknownEnum t.text)
  | some type =>
    (readMember place type rest.tail).map fun p =>
      p.widen (by simp only [List.length_tail, List.length_cons]; omega)

/-- The value of a state. -/
def readStateValue (place : Place) (ts : List Token) : Except Error (Parsed StateValue ts) :=
  match ts with
  | [] => fail place [] .noStateValue
  | t :: rest =>
    match t.kind with
    | .word (.boolean b) => .ok (.ofHead (.constant (.bool b)))
    | .punct '-' =>
      match rest with
      | [] => fail place [] .noNegativeNumber
      | n :: rest =>
        match signedNumber true n with
        | some x => .ok ⟨.constant (.number x), rest, by simp only [List.length_cons]; omega⟩
        | none => fail place (n :: rest) .noNegativeNumber
    | .number =>
      match signedNumber false t with
      | some x => .ok (.ofHead (.constant (.number x)))
      | none => fail place (t :: rest) (.badNumber t.text)
    | .string => .ok (.ofHead (.constant (.string t.unquoted)))
    | .identifier =>
      if t.text = "Color" ∧ startsWith '(' rest then
        (readColor place rest.tail).map fun p =>
          p.widen (by simp only [List.length_tail, List.length_cons]; omega)
      else if startsWith '.' rest then readEnum place t rest
      else .ok (.ofHead (.variable t.text))
    | .word _ =>
      if startsWith '.' rest then readEnum place t rest
      else fail place (t :: rest) (.badStateValue t.text)
    | _ => fail place (t :: rest) (.badStateValue t.text)

/-! ## Blocks of states -/

/-- The first index too large for a render target. -/
def targetBound : Nat := 0x100000000

/-- The index that a token writes. -/
def targetIndex? (t : Token) : Option Nat :=
  if t.kind = .number then Number.ofDigitsBelow targetBound 10 t.text.toList else none

/-- The index of the render target after the name of a state; without brackets it is zero. -/
def readTarget (place : Place) (element : StateElement) (name : String) (ts : List Token) :
    Except Error (Nat × Remainder ts) :=
  match ts with
  | t :: rest =>
    if t.isPunct '[' then
      match rest with
      | [] => fail place [] .noTargetIndex
      | index :: after =>
        match targetIndex? index with
        | none => fail place (index :: after) .noTargetIndex
        | some n =>
          if element.isPerTarget then
            (expect place ']' .afterTargetIndex after).map fun p =>
              (n, ⟨p.rest, by have := p.shorter; simp only [List.length_cons]; omega⟩)
          else fail place (index :: after) (.notPerTarget name)
    else .ok (0, .whole)
  | [] => .ok (0, .whole)

/-- The states up to the closing brace. -/
def readStateEntries (place : Place) (block : StateBlock) (ts : List Token) :
    Except Error (Parsed (List StateEntry) ts) :=
  match ts with
  | [] => fail place [] (.unterminatedBlock block)
  | t :: rest =>
    if t.isPunct '}' then .ok (.ofHead [])
    else
      match if t.isWord then StateElement.lookup? block t.text else none with
      | none => fail place (t :: rest) (.unknownProperty block t.text)
      | some element => do
        let (target, ⟨afterTarget, ht⟩) ← readTarget place element t.text rest
        let equals ← expect place '=' .afterStateName afterTarget
        let value ← readStateValue place equals.rest
        let more ← readStateEntries place block (eatEither ';' ',' value.rest)
        have h := length_eatEither_le ';' ',' value.rest
        return ⟨(⟨element, target⟩, value.value) :: more.value, more.rest, by
          have := more.shorter; have := value.shorter; have := equals.shorter
          simp only [List.length_cons]; omega⟩
termination_by ts.length
decreasing_by
  have h := length_eatEither_le ';' ',' value.rest
  have := value.shorter; have := equals.shorter
  simp only [List.length_cons]; omega

/-- A block of states after its keyword. -/
def readStates (place : Place) (block : StateBlock) (ts : List Token) :
    Except Error (Parsed (List StateEntry) ts) := do
  let brace ← expect place '{' (.afterBlock block) ts
  let entries ← readStateEntries place block brace.rest
  return entries.widen (Nat.le_of_lt brace.shorter)

/-- The type of render queue after its keyword. -/
def readQueueType (place : Place) (ts : List Token) : Except Error (Parsed StateEntry ts) := do
  let equals ← expect place '=' .afterQueueType ts
  let value ← readStateValue place equals.rest
  return ⟨(⟨.renderQueueType, 0⟩, value.value), eat ';' value.rest, by
    have := length_eat_le ';' value.rest
    have := value.shorter; have := equals.shorter
    omega⟩

end ShaderPass.Shader
