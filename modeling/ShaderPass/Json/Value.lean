import ShaderPass.Json.Grammar

/-!
# Json/Value — JSON values as written

A value keeps what its text says and decides nothing: strings keep their spelling and numbers their
digits, and an object keeps all its members in order, those with a repeated name among them.
`pretty` writes a value with one item a line and two more spaces for each level; an array or object
without items stays on its line.
-/

namespace ShaderPass.Json

/-- A JSON value. -/
inductive Value
  | null
  | bool (b : Bool)
  | number (digits : String)
  | string (spelling : Spelling)
  | array (items : List Value)
  | object (members : List (Spelling × Value))
  deriving Repr, Inhabited

namespace Value

/-- The value that stands for a text. -/
def ofText (text : String) : Value := .string (Spelling.spell text)

/-- The object with the given members. -/
def ofMembers (members : List (String × Value)) : Value :=
  .object (members.map fun (name, value) => (Spelling.spell name, value))

mutual

/-- The value that stands for data, with the shortest spellings. -/
def ofData : Data → Value
  | .null => .null
  | .text t => ofText t
  | .array items => .array (ofItems items)
  | .object members => ofMembers (ofNamed members)

/-- The values that stand for items. -/
def ofItems : List Data → List Value
  | [] => []
  | item :: items => ofData item :: ofItems items

/-- The values that stand for the data of members, with the names of these. -/
def ofNamed : List (String × Data) → List (String × Value)
  | [] => []
  | (name, data) :: members => (name, ofData data) :: ofNamed members

end

/-- A spelling between its quotes. -/
def quote (s : Spelling) : String := "\"" ++ String.ofList s ++ "\""

/-- A new line and the blanks it starts with at a level. -/
def newline (level : Nat) : String := String.ofList ('\n' :: List.replicate (2 * level) ' ')

/-- The text of a value that has no values in it. -/
def atom : Value → String
  | .null => "null"
  | .bool b => if b then "true" else "false"
  | .number digits => digits
  | .string s => quote s
  | .array _ | .object _ => ""

mutual

/-- A value as text with one item a line, `level` levels in. -/
def prettyAt (level : Nat) : Value → String
  | .array [] => "[]"
  | .array (item :: items) =>
    "[" ++ newline (level + 1) ++ prettyAt (level + 1) item ++ prettyItems (level + 1) items ++
      newline level ++ "]"
  | .object [] => "{}"
  | .object ((name, value) :: members) =>
    "\x7b" ++ newline (level + 1) ++ quote name ++ ": " ++ prettyAt (level + 1) value ++
      prettyMembers (level + 1) members ++ newline level ++ "\x7d"
  | v => atom v

/-- The items of an array after the first. -/
def prettyItems (level : Nat) : List Value → String
  | [] => ""
  | item :: items =>
    "," ++ newline level ++ prettyAt level item ++ prettyItems level items

/-- The members of an object after the first. -/
def prettyMembers (level : Nat) : List (Spelling × Value) → String
  | [] => ""
  | (name, value) :: members =>
    "," ++ newline level ++ quote name ++ ": " ++ prettyAt level value ++
      prettyMembers level members

end

/-- A value as text with one item a line. -/
def pretty (v : Value) : String := prettyAt 0 v

/-- The text that a string value stands for. -/
def text? : Value → Option String
  | .string s => s.text?
  | _ => none

end Value

end ShaderPass.Json
