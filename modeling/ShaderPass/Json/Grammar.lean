import ShaderPass.Json.Text

/-!
# Json/Grammar — the texts that JSON data is written as

    data    object [("name", text "a"), ("value", null)]
    text    { "name" : "\u0061",
              "value": null }

One datum has many texts: blanks may stand around every part, and every character of a string may be
written as an escape.  `IsText` says which they are, without saying how one of them is chosen or
read. The data are those that records of texts are made of; numbers and truth values are left out.
-/

namespace ShaderPass.Json

/-- JSON data made of texts. -/
inductive Data
  | null
  | text (t : String)
  | array (items : List Data)
  | object (members : List (String × Data))
  deriving Repr, Inhabited

/-- The data of a text that may be missing. -/
def Data.ofText? : Option String → Data
  | some t => .text t
  | none => .null

/-- The blanks that may stand between the parts of a JSON text. -/
def isBlank (c : Char) : Bool := c == ' ' || c == '\n' || c == '\t' || c == '\r'

/-- Whether all of some characters are blanks. -/
def AllBlank (cs : List Char) : Prop := ∀ c ∈ cs, isBlank c = true

/-! ## Strings -/

namespace Spelling

/-- How a character may be spelled: by itself, by a one-letter escape, by the four digits of its
code unit, or by those of two code units. -/
inductive SpellsChar (c : Char) : Spelling → Prop
  | itself (quote : c ≠ '"') (backslash : c ≠ '\\') (printed : ¬c.toNat < 0x20) : SpellsChar c [c]
  | escape {e : Char} (escape : shortEscape e = some c) : SpellsChar c ['\\', e]
  | digits {w x y z : Char} (unit : unit w x y z = some c.toNat) :
      SpellsChar c ['\\', 'u', w, x, y, z]
  | pair {w x y z w' x' y' z' : Char} {high low : Nat} (first : unit w x y z = some high)
      (isHigh : isHighSurrogate high = true) (second : unit w' x' y' z' = some low)
      (isLow : isLowSurrogate low = true) (char : c = ofSurrogates high low) :
      SpellsChar c ['\\', 'u', w, x, y, z, '\\', 'u', w', x', y', z']

/-- How characters may be spelled one after the other. -/
inductive Spells : Spelling → List Char → Prop
  | nil : Spells [] []
  | cons {c : Char} {cs : List Char} {s t : Spelling} (head : SpellsChar c s) (tail : Spells t cs) :
      Spells (s ++ t) (c :: cs)

/-- A spelling between its quotes, and what follows it. -/
def quoted (s : Spelling) (rest : List Char) : List Char := '"' :: (s ++ '"' :: rest)

end Spelling

/-! ## Data -/

/-- Characters with blanks before and after them. -/
structure Padded where
  before : List Char
  chars : List Char
  after : List Char
  blank : AllBlank (before ++ after)

/-- All characters of a padded text. -/
def Padded.text (p : Padded) : List Char := p.before ++ (p.chars ++ p.after)

/-- An item of an array with its text. -/
structure Item extends Padded where
  data : Data

/-- A member of an object with the spelling of its name and the text of its data, and the blanks
before the name and before the colon. -/
structure Member where
  name : String
  data : Data
  before : List Char
  spelling : Spelling
  gap : List Char
  value : Padded
  blank : AllBlank (before ++ gap)
  spells : spelling.Spells name.toList

/-- All characters of a member. -/
def Member.text (m : Member) : List Char :=
  m.before ++ m.spelling.quoted (m.gap ++ ':' :: m.value.text)

/-- Parts with a comma before each. -/
def afterCommas (parts : List (List Char)) : List Char := parts.flatMap (',' :: ·)

/-- Whether characters **write** data, with no blanks around them. -/
inductive Writes : Data → List Char → Prop
  | null : Writes .null "null".toList
  | text {t : String} {s : Spelling} (spells : s.Spells t.toList) : Writes (.text t) (s.quoted [])
  | emptyArray {blanks : List Char} (blank : AllBlank blanks) :
      Writes (.array []) ('[' :: (blanks ++ [']']))
  | array {first : Item} {others : List Item} {blanks : List Char}
      (each : ∀ i ∈ first :: others, Writes i.data i.chars)
      (blank : AllBlank blanks) :
      Writes (.array ((first :: others).map Item.data))
        ('[' :: (first.text ++ (afterCommas (others.map (·.text)) ++ (blanks ++ [']']))))
  | emptyObject {blanks : List Char} (blank : AllBlank blanks) :
      Writes (.object []) ('{' :: (blanks ++ ['}']))
  | object {first : Member} {others : List Member} {blanks : List Char}
      (each : ∀ m ∈ first :: others, Writes m.data m.value.chars)
      (blank : AllBlank blanks) :
      Writes (.object ((first :: others).map fun m => (m.name, m.data)))
        ('{' :: (first.text ++ (afterCommas (others.map (·.text)) ++ (blanks ++ ['}']))))

/-- Whether a text is one that JSON data is written as. -/
def IsText (data : Data) (text : String) : Prop :=
  ∃ p : Padded, Writes data p.chars ∧ text.toList = p.text

end ShaderPass.Json
