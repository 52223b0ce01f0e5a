import ShaderPass.Text.Location

/-!
# Text/Slice — stretches of a text by byte offsets

A stretch is there only if both its ends are between two characters of the text and in order.
-/

namespace ShaderPass.Text

/-- The characters after the first `n` bytes, if a character starts or the text ends there. -/
def dropBytes : Nat → List Char → Option (List Char)
  | 0, cs => some cs
  | _ + 1, [] => none
  | n + 1, c :: cs => if c.utf8Size ≤ n + 1 then dropBytes (n + 1 - c.utf8Size) cs else none
termination_by _ cs => cs.length

/-- The characters of the first `n` bytes, if a character starts or the text ends after them. -/
def takeBytes : Nat → List Char → Option (List Char)
  | 0, _ => some []
  | _ + 1, [] => none
  | n + 1, c :: cs =>
    if c.utf8Size ≤ n + 1 then (takeBytes (n + 1 - c.utf8Size) cs).map (c :: ·) else none
termination_by _ cs => cs.length

/-- The stretch of a text from one byte offset up to another. -/
def slice? (text : String) (start stop : Nat) : Option String :=
  if start ≤ stop then
    ((dropBytes start text.toList).bind (takeBytes (stop - start))).map String.ofList
  else none

end ShaderPass.Text
