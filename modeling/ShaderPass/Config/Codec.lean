import ShaderPass.Config.Basic
import ShaderPass.Diagnostic
import ShaderPass.Json.Grammar

/-!
# Config/Codec — configurations as text, by whatever writes and reads them

    configuration ──write──▸ text      some text of the data of the configuration
    configuration ◂──read─── text      any text of data that describes it

How configurations become text and come back is the work of a **codec**, which is a parameter here.
A lawful one writes JSON text of the data of a configuration (`Config.data`), and reads every JSON
text of data that describes one (`DescribesConfig`): members may be missing where they have a
default, and stand in any order; `null` is a missing body of a macro and no text.
-/

namespace ShaderPass

open Json (Data)

/-- What writes configurations as text and reads them, or refuses with a message. -/
structure Codec where
  write : Config → Except String String
  read : String → Except String Config

namespace Codec

/-- A configuration as text; what the codec says is reported under no path. -/
def encode (C : Codec) (c : Config) : Except Diagnostic String := (C.write c).mapError (.config "")

/-- The configuration that a text writes. -/
def decode (C : Codec) (text : String) : Except Diagnostic Config :=
  (C.read text).mapError (.config "")

end Codec

/-! ## The data of a configuration -/

namespace Config

/-- The data of a predefined macro. -/
def macroData (m : PredefinedMacro) : Data :=
  .object [("name", .text m.name), ("value", .ofText? m.body)]

/-- The data of texts under their paths. -/
def textsData (t : Texts) : Data := .object (t.entries.map fun (path, text) => (path, .text text))

/-- The data of a configuration: an object with one member for each part. -/
def data (c : Config) : Data :=
  .object
    [("root_unit", .text c.rootUnit), ("base_path", .text c.basePath),
      ("predefined_macros", .array (c.predefined.map macroData)),
      ("includes", textsData c.includes)]

/-! ## Data that describes a configuration -/

/-- What a member of a record gives: what the data under its name describes, if the name stands
once, and what is there for a missing one, if the name does not stand at all. -/
inductive GivesPart {α : Type} (members : List (String × Data)) (name : String)
    (missing : Option α) (Describes : Data → α → Prop) (a : α) : Prop
  | given {d : Data} (once : members.filter (·.1 = name) = [(name, d)]) (describes : Describes d a)
  | missing (absent : members.filter (·.1 = name) = []) (default : missing = some a)

/-- Data that describes a text is that text. -/
inductive DescribesText : Data → String → Prop
  | text (t : String) : DescribesText (.text t) t

/-- Data that describes a text that may be missing is `null` or the text. -/
inductive DescribesOptional : Data → Option String → Prop
  | null : DescribesOptional .null none
  | text (t : String) : DescribesOptional (.text t) (some t)

/-- The name of a macro has to be there, its body may be missing. -/
inductive DescribesMacro : Data → PredefinedMacro → Prop
  | intro {members : List (String × Data)} {m : PredefinedMacro}
      (known : ∀ x ∈ members, x.1 ∈ ["name", "value"])
      (name : GivesPart members "name" none DescribesText m.name)
      (body : GivesPart members "value" (some none) DescribesOptional m.body) :
      DescribesMacro (.object members) m

/-- Macros are described one by one. -/
inductive DescribesMacros : Data → List PredefinedMacro → Prop
  | array {ms : List (Data × PredefinedMacro)} (each : ∀ m ∈ ms, DescribesMacro m.1 m.2) :
      DescribesMacros (.array (ms.map (·.1))) (ms.map (·.2))

/-- Texts are put in one after the other, each under the name of its member. -/
inductive DescribesTexts : Data → Texts → Prop
  | object (entries : List (String × String)) :
      DescribesTexts (.object (entries.map fun (path, text) => (path, .text text)))
        (.ofList entries)

/-- Every part of a configuration may be missing, and is then what it is by default. -/
inductive DescribesConfig : Data → Config → Prop
  | intro {members : List (String × Data)} {c : Config}
      (known : ∀ x ∈ members,
        x.1 ∈ ["root_unit", "base_path", "predefined_macros", "includes"])
      (rootUnit : GivesPart members "root_unit" (some default.rootUnit) DescribesText c.rootUnit)
      (basePath : GivesPart members "base_path" (some default.basePath) DescribesText c.basePath)
      (predefined : GivesPart members "predefined_macros" (some default.predefined) DescribesMacros
        c.predefined)
      (includes : GivesPart members "includes" (some default.includes) DescribesTexts c.includes) :
      DescribesConfig (.object members) c

end Config

/-- A codec is **lawful** if it writes JSON text of the data of every configuration, and reads all
JSON text of data that describes one. -/
structure Codec.Lawful (C : Codec) : Prop where
  writes : ∀ c : Config, ∃ text, C.write c = .ok text ∧ Json.IsText c.data text
  reads : ∀ {text : String} {d : Data} {c : Config}, Json.IsText d text →
    Config.DescribesConfig d c → C.read text = .ok c

end ShaderPass
