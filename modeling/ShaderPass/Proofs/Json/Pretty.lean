import ShaderPass.Proofs.Json.Spelling

/-!
# Proofs/Json/Pretty — what is written with one item a line is text of the data

    array [d, e]      [⏎··d,⏎··e⏎]
                       ╰┬╯ ╰┬╯╰╯
                  blanks before an item, and before the bracket

The blanks are those a line starts with, and one after each colon; the spellings are the shortest
ones. So data written at any level is one of its texts (`writes_chars`).
-/

namespace ShaderPass.Json

/-- What holds of data without data in it, and of other data if it holds of all in it, holds of all
data. -/
theorem Data.induction {motive : Data → Prop} (null : motive .null) (text : ∀ t, motive (.text t))
    (array : ∀ items, (∀ d ∈ items, motive d) → motive (.array items))
    (object : ∀ members, (∀ m ∈ members, motive m.2) → motive (.object members)) : ∀ d, motive d
  | .null => null
  | .text t => text t
  | .array items => array items fun d hd =>
      have smaller : sizeOf d < 1 + sizeOf items := by
        have := List.sizeOf_lt_of_mem hd
        omega
      induction null text array object d
  | .object members => object members fun m hm =>
      have smaller : sizeOf m.2 < 1 + sizeOf members := by
        have := List.sizeOf_lt_of_mem hm
        have : sizeOf m = 1 + sizeOf m.1 + sizeOf m.2 := rfl
        omega
      induction null text array object m.2
termination_by d => sizeOf d

namespace Value

/-- The characters of a new line. -/
def indent (level : Nat) : List Char := (newline level).toList

/-- A new line is all blanks. -/
theorem allBlank_indent (level : Nat) : AllBlank (indent level) := by
  intro c hc
  rw [indent, newline, String.toList_ofList, List.mem_cons, List.mem_replicate] at hc
  rcases hc with rfl | ⟨-, rfl⟩ <;> rfl

/-- The characters of a value as text. -/
def chars (level : Nat) (v : Value) : List Char := (prettyAt level v).toList

theorem ofData_array (items : List Data) : ofData (.array items) = .array (items.map ofData) := by
  have each (items : List Data) : ofItems items = items.map ofData := by
    induction items with
    | nil => rw [ofItems, List.map_nil]
    | cons d ds ih => rw [ofItems, ih, List.map_cons]
  rw [ofData, each]

theorem ofData_object (members : List (String × Data)) :
    ofData (.object members) = .object (members.map fun m => (Spelling.spell m.1, ofData m.2)) := by
  have each (members : List (String × Data)) :
      ofNamed members = members.map fun m => (m.1, ofData m.2) := by
    induction members with
    | nil => rw [ofNamed, List.map_nil]
    | cons m ms ih => rw [ofNamed, ih, List.map_cons]
  rw [ofData, each, ofMembers, List.map_map]
  rfl

/-- An item as it is written, on a line of its own. -/
def lineItem (level : Nat) (d : Data) : Item where
  before := indent level
  chars := chars level (ofData d)
  after := []
  blank := by rw [List.append_nil]; exact allBlank_indent level
  data := d

/-- A member as it is written, on a line of its own. -/
def lineMember (level : Nat) (m : String × Data) : Member where
  name := m.1
  data := m.2
  before := indent level
  spelling := Spelling.spell m.1
  gap := []
  value := ⟨[' '], chars level (ofData m.2), [], List.forall_mem_singleton.2 rfl⟩
  blank := by rw [List.append_nil]; exact allBlank_indent level
  spells := Spelling.spells_spell m.1

/-! ## The characters of each kind of value -/

theorem chars_null (level : Nat) : chars level .null = "null".toList := by
  rw [chars, prettyAt, atom]
  all_goals simp

theorem chars_text (level : Nat) (t : String) :
    chars level (.ofText t) = (Spelling.spell t).quoted [] := by
  rw [chars, ofText, prettyAt, atom, quote]
  all_goals simp [Spelling.quoted]

theorem chars_array_nil (level : Nat) : chars level (.array []) = ['[', ']'] := by
  rw [chars, prettyAt]
  rfl

theorem chars_object_nil (level : Nat) : chars level (.object []) = ['{', '}'] := by
  rw [chars, prettyAt]
  rfl

/-- The items after the first have a comma and a new line before each. -/
theorem toList_prettyItems (level : Nat) (items : List Data) :
    (prettyItems level (items.map ofData)).toList =
      afterCommas ((items.map (lineItem level)).map (·.text)) := by
  induction items with
  | nil => rw [List.map_nil, prettyItems]; rfl
  | cons d ds ih =>
    rw [List.map_cons, prettyItems, String.toList_append, ih]
    simp [afterCommas, lineItem, Padded.text, indent, chars]

/-- The members after the first have a comma and a new line before each. -/
theorem toList_prettyMembers (level : Nat) (members : List (String × Data)) :
    (prettyMembers level (members.map fun m => (Spelling.spell m.1, ofData m.2))).toList =
      afterCommas ((members.map (lineMember level)).map (·.text)) := by
  induction members with
  | nil => rw [List.map_nil, prettyMembers]; rfl
  | cons m ms ih =>
    rw [List.map_cons, prettyMembers, String.toList_append, ih]
    simp [afterCommas, lineMember, Member.text, Padded.text, Spelling.quoted, quote, indent, chars]

/-- An array with items starts a line for each of them, and one for its bracket. -/
theorem chars_array_cons (level : Nat) (d : Data) (ds : List Data) :
    chars level (ofData (.array (d :: ds))) =
      '[' :: ((lineItem (level + 1) d).text ++
        (afterCommas ((ds.map (lineItem (level + 1))).map (·.text)) ++
          (indent level ++ [']']))) := by
  rw [ofData_array, List.map_cons, chars, prettyAt, ← toList_prettyItems]
  simp [lineItem, Padded.text, indent, chars]

/-- An object with members starts a line for each of them, and one for its brace. -/
theorem chars_object_cons (level : Nat) (m : String × Data) (ms : List (String × Data)) :
    chars level (ofData (.object (m :: ms))) =
      '{' :: ((lineMember (level + 1) m).text ++
        (afterCommas ((ms.map (lineMember (level + 1))).map (·.text)) ++
          (indent level ++ ['}']))) := by
  rw [ofData_object, List.map_cons, chars, prettyAt, ← toList_prettyMembers]
  simp [lineMember, Member.text, Padded.text, Spelling.quoted, quote, indent, chars]

/-! ## Writing -/

/-- **Data is written, at any level, as one of its texts.** -/
theorem writes_chars (d : Data) (level : Nat) : Writes d (chars level (ofData d)) := by
  induction d using Data.induction generalizing level with
  | null =>
    rw [ofData, chars_null]
    exact .null
  | text t =>
    rw [ofData, chars_text]
    exact .text (Spelling.spells_spell t)
  | array items ih =>
    cases items with
    | nil =>
      rw [ofData_array, List.map_nil, chars_array_nil]
      exact .emptyArray (List.forall_mem_nil _)
    | cons d ds =>
      have each : ∀ i ∈ (d :: ds).map (lineItem (level + 1)), Writes i.data i.chars :=
        List.forall_mem_map.2 fun e he => ih e he (level + 1)
      have items : ((d :: ds).map (lineItem (level + 1))).map Item.data = d :: ds := by
        rw [List.map_map]
        exact List.map_id _
      rw [chars_array_cons]
      exact items ▸ .array each (allBlank_indent level)
  | object members ih =>
    cases members with
    | nil =>
      rw [ofData_object, List.map_nil, chars_object_nil]
      exact .emptyObject (List.forall_mem_nil _)
    | cons m ms =>
      have each : ∀ i ∈ (m :: ms).map (lineMember (level + 1)), Writes i.data i.value.chars :=
        List.forall_mem_map.2 fun e he => ih e he (level + 1)
      have members : ((m :: ms).map (lineMember (level + 1))).map (fun i => (i.name, i.data)) =
          m :: ms := by
        rw [List.map_map]
        exact List.map_id _
      rw [chars_object_cons]
      exact members ▸ .object each (allBlank_indent level)

/-- **The value that stands for data is written as text of the data.** -/
theorem isText_pretty (d : Data) : IsText d (ofData d).pretty :=
  ⟨⟨[], chars 0 (ofData d), [], List.forall_mem_nil _⟩, writes_chars d 0, (List.append_nil _).symm⟩

end Value

end ShaderPass.Json
