import ShaderPass.Number.Digits

/-!
# Json/Text — texts and their spelling inside JSON quotes

A JSON string can spell one text in many ways: any character may be written as an escape with its
UTF-16 code units, and some escapes spell no text at all, because they name half of a surrogate
pair.  A **spelling** is what stands between the quotes.  `spell` writes the shortest one, and
`decode?` reads any.
-/

namespace ShaderPass.Json

/-- What stands between the quotes of a JSON string. -/
abbrev Spelling := List Char

namespace Spelling

/-- A hexadecimal digit in lower case. -/
def hexDigit (n : Nat) : Char := Nat.digitChar (n % 16)

/-- The spelling of one character: quotes, backslashes and control characters are escaped, all
others stand for themselves. -/
def spellChar (c : Char) : Spelling :=
  if c = '"' then ['\\', '"']
  else if c = '\\' then ['\\', '\\']
  else if c = '\x08' then ['\\', 'b']
  else if c = '\x0c' then ['\\', 'f']
  else if c = '\n' then ['\\', 'n']
  else if c = '\r' then ['\\', 'r']
  else if c = '\t' then ['\\', 't']
  else if c.toNat < 0x20 then ['\\', 'u', '0', '0', hexDigit (c.toNat / 16), hexDigit c.toNat]
  else [c]

/-- The shortest spelling of a text. -/
def spell (text : String) : Spelling := text.toList.flatMap spellChar

/-- The character that a one-letter escape stands for. -/
def shortEscape : Char → Option Char
  | '"' => some '"'
  | '\\' => some '\\'
  | '/' => some '/'
  | 'b' => some '\x08'
  | 'f' => some '\x0c'
  | 'n' => some '\n'
  | 'r' => some '\r'
  | 't' => some '\t'
  | _ => none

/-- The code unit that four hexadecimal digits name. -/
def unit (a b c d : Char) : Option Nat := Number.ofDigits 16 [a, b, c, d]

/-- Whether a code unit is the first half of a surrogate pair. -/
def isHighSurrogate (n : Nat) : Bool := 0xd800 ≤ n && n < 0xdc00

/-- Whether a code unit is the second half of a surrogate pair. -/
def isLowSurrogate (n : Nat) : Bool := 0xdc00 ≤ n && n < 0xe000

/-- The character that a surrogate pair stands for. -/
def ofSurrogates (high low : Nat) : Char :=
  Char.ofNat (0x10000 + (high - 0xd800) * 0x400 + (low - 0xdc00))

/-- The characters that a spelling stands for, if every escape in it stands for one. -/
def decode? : Spelling → Option (List Char)
  | [] => some []
  | '\\' :: 'u' :: a :: b :: c :: d :: '\\' :: 'u' :: e :: f :: g :: h :: rest =>
    (unit a b c d).bind fun high =>
      if isHighSurrogate high then
        (unit e f g h).bind fun low =>
          if isLowSurrogate low then (decode? rest).map (ofSurrogates high low :: ·) else none
      else if isLowSurrogate high then none
      else (decode? ('\\' :: 'u' :: e :: f :: g :: h :: rest)).map (Char.ofNat high :: ·)
  | '\\' :: 'u' :: a :: b :: c :: d :: rest =>
    (unit a b c d).bind fun n =>
      if isHighSurrogate n || isLowSurrogate n then none
      else (decode? rest).map (Char.ofNat n :: ·)
  | '\\' :: c :: rest => (shortEscape c).bind fun c => (decode? rest).map (c :: ·)
  | c :: rest => if c = '\\' then none else (decode? rest).map (c :: ·)

/-- The text that a spelling stands for. -/
def text? (s : Spelling) : Option String := (decode? s).map String.ofList

end Spelling

end ShaderPass.Json
