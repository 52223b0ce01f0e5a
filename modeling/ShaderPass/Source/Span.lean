/-!
# Source/Span — a stretch of a text

A **span** gives a stretch of a text by its first byte and the byte after its last.  A span whose
end is not after its start is empty.
-/

namespace ShaderPass.Source

/-- The bytes from `start` up to, and without, `stop`. -/
structure Span where
  start : Nat
  stop : Nat
  deriving DecidableEq, Repr, Inhabited

namespace Span

/-- The number of bytes in a span. -/
def length (s : Span) : Nat := s.stop - s.start

/-- Whether a span holds no byte. -/
def isEmpty (s : Span) : Bool := decide (s.stop ≤ s.start)

/-- The span from the start of one span to the end of another. -/
def through (first last : Span) : Span := ⟨first.start, last.stop⟩

end Span

end ShaderPass.Source
