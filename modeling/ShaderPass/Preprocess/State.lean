import ShaderPass.Conditional
import ShaderPass.Notice
import ShaderPass.Source.Piece
import ShaderPass.Preprocess.Cause
import ShaderPass.Preprocess.Library

/-!
# Preprocess/State — what preprocessing knows and has put out so far

The **state** goes through all units of a run: the macros, the open groups of the unit being read
and of those it is spliced into, the chain of these units, the units read and marked, and all that
has been put out.  It stays what it was where a directive fails, so that the output up to there can
be located.  The output and its source map are read off what has been put out, **emission** by
emission.

A **frame** is what belongs to one unit alone: the text that is left of it and the tokens that wait
to be expanded.
-/

namespace ShaderPass.Preprocess

open Macro (Token Origin)

/-- What does not change in the course of a run. -/
structure Settings where
  library : Library
  basePath : String
  /-- The names of the macros that are there from the start. -/
  predefined : List String
  deriving DecidableEq, Repr, Inhabited

/-- What is put out at once: a token of the shader text, a line feed that stands for a line end of a
directive line or of skipped text, or the text of a directive that is passed through. -/
inductive Emission
  | token (t : Token)
  | lineEnd (unit offset : Nat)
  | passed (text : String) (origin : Origin)
  deriving DecidableEq, Repr, Inhabited

/-- The text that is put out, with the place it comes from. -/
def Emission.piece : Emission → Source.Piece
  | .token t => ⟨t.text, t.origin.unit, t.origin.offset, t.verbatim⟩
  | .lineEnd unit offset => ⟨"\n", unit, offset, true⟩
  | .passed text origin => ⟨text, origin.unit, origin.offset, false⟩

/-- The state of a run. -/
structure State where
  macros : Macro.Table
  units : Array Source.Unit
  /-- What has been put out, in order. -/
  emitted : Array Emission
  /-- The open groups, innermost first. -/
  groups : List Group
  /-- The names of the unit being read and of the units it is spliced into, innermost first. -/
  chain : List String
  /-- The names of the units that are not to be spliced in again. -/
  marked : List String
  notices : Array Notice
  deriving DecidableEq, Repr, Inhabited

namespace State

/-- The state with nothing but macros. -/
def initial (macros : Macro.Table) : State := ⟨macros, #[], #[], [], [], [], #[]⟩

/-- The state without what a run has left in it; the macros stay. -/
def clear (s : State) : State :=
  { s with units := #[], emitted := #[], groups := [], chain := [], marked := [], notices := #[] }

/-- Whether the text being read is emitted. -/
def isActive (s : State) : Bool :=
  match s.groups with
  | [] => true
  | g :: _ => g.isEmitting

/-- How quotes are read: text that is not emitted is not shader text. -/
def mode (s : State) : Lexeme.Mode := if s.isActive then .strict else .lenient

/-- The pieces of the output so far. -/
def pieces (s : State) : List Source.Piece := s.emitted.toList.map Emission.piece

/-- The text put out so far. -/
def output (s : State) : String := Source.Piece.output s.pieces

/-- Where the text put out so far came from. -/
def sourceMap (s : State) : Source.Map := Source.Piece.map s.units s.pieces

/-- The position of an origin. -/
def position (s : State) (o : Origin) : Source.Position :=
  Source.positionIn s.units o.unit o.offset

/-- Puts something out. -/
def emit (s : State) (e : Emission) : State := { s with emitted := s.emitted.push e }

/-- Puts out a token. -/
def emitToken (s : State) (t : Token) : State := s.emit (.token t)

/-- Puts out a line feed for a line end of the source. -/
def emitLineEnd (s : State) (unit offset : Nat) : State := s.emit (.lineEnd unit offset)

/-- Puts out a line feed for each of some line ends of a unit. -/
def emitLineEnds (s : State) (unit : Nat) (offsets : List Nat) : State :=
  offsets.foldl (fun s offset => s.emitLineEnd unit offset) s

/-- Adds a notice. -/
def note (s : State) (n : Notice) : State := { s with notices := s.notices.push n }

/-- Opens a group. -/
def openGroup (s : State) (g : Group) : State := { s with groups := g :: s.groups }

/-- Replaces the innermost group. -/
def setGroup (s : State) (g : Group) : State := { s with groups := g :: s.groups.tail }

/-- Closes the innermost group. -/
def closeGroup (s : State) : State := { s with groups := s.groups.tail }

/-- Closes all groups but the outermost `depth`. -/
def closeAbove (s : State) (depth : Nat) : State :=
  { s with groups := s.groups.drop (s.groups.length - depth) }

/-- Leaves the unit being read. -/
def leave (s : State) : State := { s with chain := s.chain.tail }

/-- The innermost group, if there are more than `depth`. -/
def groupAbove? (s : State) (depth : Nat) : Option Group :=
  if depth < s.groups.length then s.groups.head? else none

/-- The outermost of the groups above the first `depth`. -/
def outermostAbove? (s : State) (depth : Nat) : Option Group := s.groups.reverse[depth]?

end State

/-- What belongs to the reading of one unit. -/
structure Frame where
  /-- The index of the unit. -/
  unit : Nat
  /-- The name of the unit. -/
  name : String
  /-- The directory that paths in the unit are read from. -/
  directory : String
  /-- The number of groups that were open where the unit began. -/
  depth : Nat
  cursor : Lexeme.Cursor
  /-- The tokens that wait to be expanded, last first. -/
  waiting : List Token
  /-- Whether only trivia has been read since the start of the line. -/
  atLineStart : Bool
  deriving DecidableEq, Repr

/-- The place of the cursor. -/
def Frame.origin (f : Frame) : Origin := ⟨f.unit, f.cursor.location.offset⟩

/-- Begins a unit: the frame at its start, and the state that knows it. -/
def begin (s : State) (name text directory : String) : Frame × State :=
  let (unit, units) := Source.addUnit s.units ⟨name, text⟩
  (⟨unit, name, directory, s.groups.length, .ofString text, [], true⟩,
    { s with units, chain := name :: s.chain })

end ShaderPass.Preprocess
