import ShaderPass.Source.Unit

/-!
# Source/Map — where each byte of an output came from

A **source map** lists the units that were read and, in the order of the output, **runs** of output
bytes that share an origin.  In an advancing run the source moves along with the output, byte by
byte; in any other run all bytes come from one place.  Runs are recorded by `push`, which lengthens
the last run where the new bytes go on from it, and looked up by halving the list (`runAt`), which
takes the output starts to be in ascending order.
-/

namespace ShaderPass.Source

/-- A run of output bytes with one origin. -/
structure Run where
  outputStart : Nat
  outputStop : Nat
  /-- The index of the unit. -/
  unit : Nat
  sourceOffset : Nat
  /-- Whether the source offset moves along with the output. -/
  advancing : Bool
  deriving DecidableEq, Repr, Inhabited

namespace Run

/-- The number of output bytes. -/
def length (r : Run) : Nat := r.outputStop - r.outputStart

/-- The source offset of the output byte after the run, if the run went on. -/
def nextOffset (r : Run) : Nat :=
  if r.advancing then r.sourceOffset + r.length else r.sourceOffset

/-- The source offset of an output byte.  A byte before the run has the offset of its first byte,
and one past it the offset just after its last. -/
def offsetAt (r : Run) (i : Nat) : Nat :=
  if r.advancing then r.sourceOffset + min (i - r.outputStart) r.length else r.sourceOffset

/-- Whether `s` starts where `r` ends, in the output as in the source. -/
def continuedBy (r s : Run) : Bool :=
  r.outputStop == s.outputStart && r.unit == s.unit && r.advancing == s.advancing &&
    r.nextOffset == s.sourceOffset

end Run

/-- The index of a unit among some units, and these with it; a unit that is there keeps its
index. -/
def addUnit (units : Array Unit) (u : Unit) : Nat × Array Unit :=
  match units.idxOf? u with
  | some i => (i, units)
  | none => (units.size, units.push u)

/-- The position of an offset in the unit of the given index. -/
def positionIn (units : Array Unit) (unit offset : Nat) : Position :=
  match units[unit]? with
  | some u => u.position offset
  | none => .unknown

/-- The units read and the runs of the output. -/
structure Map where
  units : Array Unit
  runs : Array Run
  deriving DecidableEq, Repr, Inhabited

namespace Map

/-- The map of no output. -/
def empty : Map := ⟨#[], #[]⟩

/-- Records a run, joined to the last one where it goes on from it.  An empty run is dropped. -/
def push (m : Map) (r : Run) : Map :=
  if r.outputStart = r.outputStop then m
  else
    match m.runs.back? with
    | some last =>
      if last.continuedBy r then
        { m with runs := m.runs.pop.push { last with outputStop := r.outputStop } }
      else { m with runs := m.runs.push r }
    | none => { m with runs := m.runs.push r }

/-- The last run that starts at or before an output index; the first run if none does. -/
def runAt (m : Map) (i : Nat) : Option Run :=
  m.runs[lastIndex (fun k => (m.runs[k]?).any (·.outputStart ≤ i)) 0 m.runs.size]?

/-- The unit index and source offset of an output index, if the output is not empty. -/
def locate (m : Map) (i : Nat) : Option (Nat × Nat) :=
  (m.runAt i).map fun r => (r.unit, r.offsetAt i)

/-- The position an output index came from. -/
def position? (m : Map) (i : Nat) : Option Position :=
  (m.locate i).map fun (unit, offset) => positionIn m.units unit offset

/-- The position an output index came from, unknown for an output without runs. -/
def position (m : Map) (i : Nat) : Position := (m.position? i).getD .unknown

end Map

end ShaderPass.Source
