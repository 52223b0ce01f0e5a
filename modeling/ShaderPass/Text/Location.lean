/-!
# Text/Location — a place in a text, counted in bytes, lines and columns

A **location** counts what has been read before it: the bytes of the text's UTF-8 form, the line
feeds (lines start at 1), and the characters since the last line feed (columns start at 1).
Reading a character moves the location by `advance`; reading a piece of text is the same in one go
(`advanceAll_append`).
-/

namespace ShaderPass

namespace Text

/-- The bytes of a text's UTF-8 form. -/
def bytes (s : String) : List UInt8 := s.toByteArray.data.toList

/-- The number of bytes in the UTF-8 form of some characters. -/
def byteLength : List Char → Nat
  | [] => 0
  | c :: cs => c.utf8Size + byteLength cs

@[simp] theorem byteLength_append (cs ds : List Char) :
    byteLength (cs ++ ds) = byteLength cs + byteLength ds := by
  induction cs with
  | nil => simp [byteLength]
  | cons c cs ih => simp [byteLength, ih, Nat.add_assoc]

end Text

/-- A place in a text: a byte offset, with the line and the column that go with it. -/
structure Location where
  offset : Nat
  line : Nat
  column : Nat
  deriving DecidableEq, Repr, Inhabited

namespace Location

/-- The place before the first character. -/
def origin : Location := ⟨0, 1, 1⟩

/-- The place after one more character; a line feed starts the next line. -/
def advance (l : Location) (c : Char) : Location :=
  if c = '\n' then ⟨l.offset + c.utf8Size, l.line + 1, 1⟩
  else ⟨l.offset + c.utf8Size, l.line, l.column + 1⟩

/-- The place after some more characters. -/
def advanceAll (l : Location) (cs : List Char) : Location := cs.foldl advance l

@[simp] theorem advanceAll_nil (l : Location) : l.advanceAll [] = l := rfl

@[simp] theorem advanceAll_append (l : Location) (cs ds : List Char) :
    l.advanceAll (cs ++ ds) = (l.advanceAll cs).advanceAll ds := List.foldl_append

@[simp] theorem offset_advance (l : Location) (c : Char) :
    (l.advance c).offset = l.offset + c.utf8Size := by
  rw [advance]; split <;> rfl

/-- The offset grows by the bytes read. -/
theorem offset_advanceAll (l : Location) (cs : List Char) :
    (l.advanceAll cs).offset = l.offset + Text.byteLength cs := by
  induction cs generalizing l with
  | nil => rfl
  | cons c cs ih =>
    show ((l.advance c).advanceAll cs).offset = _
    rw [ih, offset_advance, Text.byteLength, Nat.add_assoc]

end Location

end ShaderPass
