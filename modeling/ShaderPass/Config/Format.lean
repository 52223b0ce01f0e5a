import ShaderPass.Config.Codec
import ShaderPass.Json.Read

/-!
# Config/Format — a codec for configurations

A configuration is written with one item a line.  Reading is more lenient than a codec has to be: an
object may have members that count for nothing, and an array gives the parts in order and may stop
early; but no member stands twice.  Only among the texts may a path be repeated, and then the last
one counts.
-/

namespace ShaderPass

namespace Config

open Json (Value)

/-! ## Writing -/

/-- A configuration as text. -/
def write (c : Config) : String := (Value.ofData c.data).pretty

/-! ## Reading -/

/-- The value under a name, if there is one; the name may not stand twice. -/
def part? (members : List (Json.Spelling × Value)) (name : String) : Option (Option Value) :=
  match members.filter fun m => Json.Spelling.text? m.1 = some name with
  | [] => some none
  | [member] => some (some member.2)
  | _ => none

/-- The parts of a record: the value of each of some names, if it has one.  Every name in it has to
be a text. -/
def parts (names : List String) : Value → Option (List (Option Value))
  | .object members =>
    if members.all fun m => (Json.Spelling.text? m.1).isSome then names.mapM (part? members)
    else none
  | .array items =>
    if items.length ≤ names.length then
      some (items.map some ++ List.replicate (names.length - items.length) none)
    else none
  | _ => none

/-- A part that may be missing. -/
def orElse {α : Type} (missing : Option α) (read : Value → Option α) : Option Value → Option α
  | some v => read v
  | none => missing

/-- A text, or nothing. -/
def textOrNull? : Value → Option (Option String)
  | .null => some none
  | v => v.text?.map some

/-- A predefined macro; its name has to be there. -/
def macro? (v : Value) : Option PredefinedMacro :=
  match parts ["name", "value"] v with
  | some [name, body] => do
    let name ← orElse none Value.text? name
    let body ← orElse (some none) textOrNull? body
    return ⟨name, body⟩
  | _ => none

/-- The predefined macros. -/
def macros? : Value → Option (List PredefinedMacro)
  | .array items => items.mapM macro?
  | _ => none

/-- A text under its path. -/
def pathAndText? (member : Json.Spelling × Value) : Option (String × String) := do
  let path ← Json.Spelling.text? member.1
  let text ← member.2.text?
  return (path, text)

/-- The texts. -/
def texts? : Value → Option Texts
  | .object members => (members.mapM pathAndText?).map .ofList
  | _ => none

/-- The configuration of a value. -/
def ofValue? (v : Value) : Option Config :=
  match parts ["root_unit", "base_path", "predefined_macros", "includes"] v with
  | some [rootUnit, basePath, predefined, includes] => do
    let rootUnit ← orElse (some default.rootUnit) Value.text? rootUnit
    let basePath ← orElse (some default.basePath) Value.text? basePath
    let predefined ← orElse (some default.predefined) macros? predefined
    let includes ← orElse (some default.includes) texts? includes
    return ⟨rootUnit, basePath, predefined, includes⟩
  | _ => none

/-- The configuration that a text writes. -/
def read (text : String) : Option Config := (Json.read text).bind ofValue?

/-- The codec that configurations are written and read by. -/
def codec : Codec where
  write c := .ok c.write
  read text := (read text).elim (.error "not a configuration") .ok

/-! ## Files -/

/-- What a byte that belongs to no character is written as: two second halves of surrogate pairs,
of which one at least finds no first half before it. -/
def strayByte : List Char := "\\udfff\\udfff".toList

/-- The characters that bytes write, from an index on; `escaping` says that a backslash before them
escapes the first.  A stray byte spoils a text that is asked for and nothing else; but it cannot be
escaped, and is then written as a control character, which no JSON text holds. -/
def charsOf (bytes : ByteArray) (escaping : Bool) (i : Nat) : List Char :=
  if i < bytes.size then
    match bytes.utf8DecodeChar? i with
    | some c => c :: charsOf bytes (c == '\\' && !escaping) (i + c.utf8Size)
    | none => (if escaping then ['\x00'] else strayByte) ++ charsOf bytes false (i + 1)
  else []
termination_by bytes.size - i
decreasing_by
  · have := c.utf8Size_pos; omega
  · omega

/-- The configuration that the bytes of a file write. -/
def readBytes (bytes : ByteArray) : Option Config :=
  read (String.ofList (charsOf bytes false 0))

end Config

end ShaderPass
