import ShaderPass.Source.Map

/-!
# Source/Piece — an output in the pieces it was put together from

A **piece** is a text of the output with the place it came from.  The pieces of an output, in order,
determine its text and its source map.
-/

namespace ShaderPass.Source

/-- A text of the output, and where it came from. -/
structure Piece where
  text : String
  /-- The index of the unit. -/
  unit : Nat
  /-- The offset in the unit, of the first byte if the piece is advancing, else of every byte. -/
  offset : Nat
  advancing : Bool
  deriving DecidableEq, Repr, Inhabited

namespace Piece

/-- The number of bytes. -/
def length (p : Piece) : Nat := p.text.utf8ByteSize

/-- The run of a piece that starts at an output index. -/
def run (p : Piece) (start : Nat) : Run :=
  ⟨start, start + p.length, p.unit, p.offset, p.advancing⟩

/-- The text of some pieces. -/
def output (pieces : List Piece) : String := String.join (pieces.map (·.text))

/-- The text of pieces put together is their texts put together. -/
@[simp] theorem output_append (ps qs : List Piece) : output (ps ++ qs) = output ps ++ output qs := by
  rw [output, List.map_append, String.join_append]; rfl

/-- Records pieces from an output index on. -/
def record : Nat → Map → List Piece → Map
  | _, m, [] => m
  | start, m, p :: ps => record (start + p.length) (m.push (p.run start)) ps

/-- The source map of some pieces. -/
def map (units : Array Unit) (pieces : List Piece) : Map := record 0 ⟨units, #[]⟩ pieces

end Piece

end ShaderPass.Source
