/-!
# Source/Position — a line and a column in a named source unit

Positions are what messages show.  The default position, which names no unit and has line and
column zero, stands for a place that is not known.
-/

namespace ShaderPass.Source

/-- A line and a column, both counted from 1, in the unit of the given name. -/
structure Position where
  unit : String
  line : Nat
  column : Nat
  deriving DecidableEq, Repr

namespace Position

/-- The place that is not known. -/
def unknown : Position := ⟨"", 0, 0⟩

/-- The written form: unit, line and column with colons between them. -/
def render (p : Position) : String :=
  p.unit ++ ":" ++ toString p.line ++ ":" ++ toString p.column

end Position

end ShaderPass.Source
