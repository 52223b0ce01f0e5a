import ShaderPass.Text.Slice
import ShaderPass.Source.Position
import ShaderPass.Source.Search

/-!
# Source/Unit — a named text, and the line and column of its bytes

A **unit** is a text under the name it was read by.  `lineColumn` turns a byte offset into a line
and a column, both from 1, by the table of the offsets at which lines start.  Columns count
characters; an offset past the end stands for the end, and one inside a character has the number of
bytes since the start of the line for its column.
-/

namespace ShaderPass.Source

/-- A text and the name it was read under. -/
structure Unit where
  name : String
  text : String
  deriving DecidableEq, Repr, Inhabited

/-- The offsets just after the line feeds among some bytes, the first of which is at `offset`. -/
def startsAfter : Nat → List UInt8 → List Nat
  | _, [] => []
  | offset, b :: bs =>
    if b = '\n'.toUInt8 then (offset + 1) :: startsAfter (offset + 1) bs
    else startsAfter (offset + 1) bs

/-- The offsets at which the lines of a text start. -/
def lineStarts (text : String) : Array Nat := (0 :: startsAfter 0 (Text.bytes text)).toArray

/-- The line and column of an offset that is not past the end of a text, by the offsets at which its
lines start: the line is the last that starts at or before it, and the column says what is between. -/
def lineColumnAt (starts : Array Nat) (text : String) (offset : Nat) : Nat × Nat :=
  let line := lastIndex (fun k => starts[k]?.any (· ≤ offset)) 0 starts.size
  let start := starts.getD line 0
  let width := ((Text.slice? text start offset).map (·.length)).getD (offset - start)
  (line + 1, width + 1)

namespace Unit

/-- The line and column of a byte offset. -/
def lineColumn (u : Unit) (offset : Nat) : Nat × Nat :=
  lineColumnAt (lineStarts u.text) u.text (min offset u.text.utf8ByteSize)

/-- The position of a byte offset. -/
def position (u : Unit) (offset : Nat) : Position :=
  let (line, column) := u.lineColumn offset
  ⟨u.name, line, column⟩

end Unit

end ShaderPass.Source
