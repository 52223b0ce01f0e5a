import ShaderPass.Source.Position

/-!
# Conditional — the groups of text that a condition chooses from

A **group** goes from its opening directive to the one that ends it and has branches, of which at
most one is **emitted**: the first whose condition holds, in a group that stands in emitted text
itself.  The group remembers whether the text around it is emitted, whether its current branch is
taken, whether any branch has been, and whether the branch for all other cases has been seen.
-/

namespace ShaderPass

/-- An open group. -/
structure Group where
  /-- Whether the text around the group is emitted. -/
  parentActive : Bool
  /-- Whether the current branch is the one chosen. -/
  taken : Bool
  /-- Whether a branch has been chosen. -/
  anyTaken : Bool
  seenElse : Bool
  openedAt : Source.Position
  deriving DecidableEq, Repr

namespace Group

/-- The group that a directive opens. -/
def opened (parentActive condition : Bool) (openedAt : Source.Position) : Group :=
  let taken := parentActive && condition
  ⟨parentActive, taken, taken, false, openedAt⟩

/-- Whether the next branch can still be chosen. -/
def isUndecided (g : Group) : Bool := g.parentActive && !g.anyTaken

/-- The group in a further branch with a condition. -/
def elseIf (g : Group) (condition : Bool) : Group :=
  let taken := g.isUndecided && condition
  { g with taken, anyTaken := g.anyTaken || taken }

/-- The group in the branch for all other cases. -/
def otherwise (g : Group) : Group :=
  let taken := g.isUndecided
  { g with taken, anyTaken := g.anyTaken || taken, seenElse := true }

/-- Whether the text of the current branch is emitted. -/
def isEmitting (g : Group) : Bool := g.parentActive && g.taken

end Group

end ShaderPass
