/-!
# Directive/Basic — the lines that direct preprocessing

A directive line starts with `#`.  It defines or undefines a macro, opens, continues or closes a
conditional group, splices in another text, stops with a message, or marks its unit to be spliced
in once.  Lines that the shading language has a use for are **passed through**.
-/

namespace ShaderPass

/-- What decides whether the first branch of a conditional group counts. -/
inductive Guard
  | defined (name : String)
  | undefined (name : String)
  | condition (text : String)
  deriving DecidableEq, Repr

/-- A directive. -/
inductive Directive
  | define (name : String) (params : Option (List String)) (body : String)
  | undefine (name : String)
  | openGroup (guard : Guard)
  | elseIf (condition : String)
  | otherwise
  | endGroup
  | splice (path : String)
  | stop (message : String)
  | once
  | passThrough (text : String)
  | nothing
  deriving DecidableEq, Repr

namespace Directive

/-- The words that name a directive of conditional groups. -/
def groupWords : List String := ["if", "ifdef", "ifndef", "elif", "else", "endif"]

/-- The words that open a conditional group. -/
def openingWords : List String := ["if", "ifdef", "ifndef"]

/-- The words whose lines are passed through. -/
def passedWords : List String := ["version", "extension", "pragma", "line"]

/-- The words that name a directive. -/
def words : List String := ["define", "undef", "include", "error"] ++ passedWords ++ groupWords

end Directive

end ShaderPass
