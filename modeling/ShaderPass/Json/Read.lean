import ShaderPass.Json.Value

/-!
# Json/Read — reading JSON text

`read` takes the whole text for one value.  Each reader gives the text after what it read together
with the proof that this is less text, which is what the nested readers descend on.
-/

namespace ShaderPass.Json

/-- A text without the blanks it starts with. -/
def skipBlanks (text : List Char) : List Char := text.dropWhile isBlank

/-- What follows a word at the front of a text. -/
def afterWord? : List Char → List Char → Option (List Char)
  | [], text => some text
  | _ :: _, [] => none
  | w :: ws, c :: text => if w = c then afterWord? ws text else none

/-- The spelling up to the closing quote, and what follows the quote. -/
def readSpelling : List Char → Option (Spelling × List Char)
  | [] => none
  | '"' :: rest => some ([], rest)
  | '\\' :: 'u' :: a :: b :: c :: d :: rest =>
    if (Spelling.unit a b c d).isSome then
      (readSpelling rest).map fun (s, rest) => ('\\' :: 'u' :: a :: b :: c :: d :: s, rest)
    else none
  | '\\' :: c :: rest =>
    if (Spelling.shortEscape c).isSome then
      (readSpelling rest).map fun (s, rest) => ('\\' :: c :: s, rest)
    else none
  | c :: rest =>
    if c = '\\' ∨ c.toNat < 0x20 then none
    else (readSpelling rest).map fun (s, rest) => (c :: s, rest)

/-- At least one digit, and what follows the digits. -/
def readDigits (text : List Char) : Option (List Char × List Char) :=
  let digits := text.takeWhile Char.isDigit
  if digits = [] then none else some (digits, text.dropWhile Char.isDigit)

/-- The whole part of a number: a zero, or digits that start with another. -/
def readWhole : List Char → Option (List Char × List Char)
  | '0' :: rest => some (['0'], rest)
  | text => readDigits text

/-- The fraction of a number, if there is one. -/
def readFraction : List Char → Option (List Char × List Char)
  | '.' :: rest => (readDigits rest).map fun (ds, rest) => ('.' :: ds, rest)
  | text => some ([], text)

/-- The exponent of a number, if there is one. -/
def readExponent : List Char → Option (List Char × List Char)
  | e :: sign :: rest =>
    if e = 'e' ∨ e = 'E' then
      if sign = '+' ∨ sign = '-' then
        (readDigits rest).map fun (ds, rest) => (e :: sign :: ds, rest)
      else (readDigits (sign :: rest)).map fun (ds, rest) => (e :: ds, rest)
    else some ([], e :: sign :: rest)
  | [e] => if e = 'e' ∨ e = 'E' then none else some ([], [e])
  | [] => some ([], [])

/-- A number without its sign, and what follows it. -/
def readUnsigned (text : List Char) : Option (List Char × List Char) := do
  let (whole, text) ← readWhole text
  let (fraction, text) ← readFraction text
  let (exponent, text) ← readExponent text
  return (whole ++ fraction ++ exponent, text)

/-- A number, and what follows it. -/
def readNumber : List Char → Option (List Char × List Char)
  | '-' :: text => (readUnsigned text).map fun (digits, text) => ('-' :: digits, text)
  | text => readUnsigned text

/-- A result together with less text than there was. -/
abbrev Shorter (α : Type) (text : List Char) :=
  Option (α × { rest : List Char // rest.length < text.length })

/-- A result with the text after it, if that is less text. -/
def shorten {α : Type} (text : List Char) (read : Option (α × List Char)) : Shorter α text :=
  read.bind fun (a, rest) => if h : rest.length < text.length then some (a, ⟨rest, h⟩) else none

/-- A value that has no values in it. -/
def readAtom (text : List Char) : Option (Value × List Char) :=
  match text with
  | '"' :: rest => (readSpelling rest).map fun (s, rest) => (.string s, rest)
  | text =>
    match afterWord? "null".toList text, afterWord? "true".toList text,
        afterWord? "false".toList text with
    | some rest, _, _ => some (.null, rest)
    | _, some rest, _ => some (.bool true, rest)
    | _, _, some rest => some (.bool false, rest)
    | none, none, none => (readNumber text).map fun (ds, rest) => (.number (String.ofList ds), rest)

/-- The name of a member and the colon after it. -/
def readName (text : List Char) : Option (Spelling × List Char) :=
  match skipBlanks text with
  | '"' :: rest =>
    (readSpelling rest).bind fun (name, rest) =>
      match skipBlanks rest with
      | ':' :: rest => some (name, rest)
      | _ => none
  | _ => none

theorem length_skipBlanks_le (text : List Char) : (skipBlanks text).length ≤ text.length :=
  (List.dropWhile_sublist isBlank).length_le

theorem length_of_skipBlanks {text rest : List Char} {c : Char} (h : skipBlanks text = c :: rest) :
    rest.length < text.length := by
  have := length_skipBlanks_le text
  rw [h, List.length_cons] at this
  exact this

mutual

/-- A value, and what follows it. -/
def readValue (text : List Char) : Shorter Value text :=
  match h : skipBlanks text with
  | '[' :: rest =>
    match h' : skipBlanks rest with
    | ']' :: rest' =>
      some (.array [], ⟨rest', Nat.lt_trans (length_of_skipBlanks h') (length_of_skipBlanks h)⟩)
    | _ =>
      match readItems rest with
      | some (items, ⟨rest', hr⟩) =>
        some (.array items, ⟨rest', Nat.lt_trans hr (length_of_skipBlanks h)⟩)
      | none => none
  | '{' :: rest =>
    match h' : skipBlanks rest with
    | '}' :: rest' =>
      some (.object [], ⟨rest', Nat.lt_trans (length_of_skipBlanks h') (length_of_skipBlanks h)⟩)
    | _ =>
      match readMembers rest with
      | some (members, ⟨rest', hr⟩) =>
        some (.object members, ⟨rest', Nat.lt_trans hr (length_of_skipBlanks h)⟩)
      | none => none
  | atom => shorten text (readAtom atom)
termination_by (text.length, 0)
decreasing_by
  all_goals exact Prod.Lex.left _ _ (length_of_skipBlanks h)

/-- The items of an array up to its closing bracket, and what follows it. -/
def readItems (text : List Char) : Shorter (List Value) text :=
  match readValue text with
  | none => none
  | some (item, ⟨rest, h⟩) =>
    match h' : skipBlanks rest with
    | ']' :: rest' => some ([item], ⟨rest', Nat.lt_trans (length_of_skipBlanks h') h⟩)
    | ',' :: rest' =>
      have hr := Nat.lt_trans (length_of_skipBlanks h') h
      match readItems rest' with
      | some (items, ⟨rest'', hr'⟩) => some (item :: items, ⟨rest'', Nat.lt_trans hr' hr⟩)
      | none => none
    | _ => none
termination_by (text.length, 1)

/-- The members of an object up to its closing brace, and what follows it. -/
def readMembers (text : List Char) : Shorter (List (Spelling × Value)) text :=
  match shorten text (readName text) with
  | none => none
  | some (name, ⟨start, hs⟩) =>
    match readValue start with
    | none => none
    | some (value, ⟨rest, h⟩) =>
      match h' : skipBlanks rest with
      | '}' :: rest' =>
        some ([(name, value)], ⟨rest', Nat.lt_trans (length_of_skipBlanks h') (Nat.lt_trans h hs)⟩)
      | ',' :: rest' =>
        have hr := Nat.lt_trans (length_of_skipBlanks h') (Nat.lt_trans h hs)
        match readMembers rest' with
        | some (members, ⟨rest'', hr'⟩) =>
          some ((name, value) :: members, ⟨rest'', Nat.lt_trans hr' hr⟩)
        | none => none
      | _ => none
termination_by (text.length, 1)

end

/-- The value that a text writes. -/
def read (text : String) : Option Value :=
  match readValue text.toList with
  | some (v, ⟨rest, _⟩) => if skipBlanks rest = [] then some v else none
  | none => none

end ShaderPass.Json
