/-!
# VirtualPath — the paths that name include texts

A **virtual path** is a text of segments.  Both kinds of slash separate segments; empty segments
and `.` mean nothing, and `..` undoes the segment before it, if there is one.  The **normal form**
of a path is its meaning written with `/` between the segments.
-/

namespace ShaderPass.VirtualPath

/-- Whether a character separates segments. -/
def isSeparator (c : Char) : Bool := c == '/' || c == '\\'

/-- The segments of a path as written. -/
def segments : List Char → List (List Char)
  | [] => [[]]
  | c :: cs =>
    if isSeparator c then [] :: segments cs
    else
      match segments cs with
      | [] => [[c]]
      | s :: ss => (c :: s) :: ss

/-- Adds a segment to the meaning of the segments before it, which are kept last first. -/
def resolve (before : List (List Char)) (segment : List Char) : List (List Char) :=
  if segment = [] ∨ segment = ['.'] then before
  else if segment = ['.', '.'] then before.tail
  else segment :: before

/-- The segments that a path means. -/
def meaning (path : List Char) : List (List Char) := ((segments path).foldl resolve []).reverse

/-- The normal form of a path. -/
def normalize (path : String) : String := String.ofList (List.intercalate ['/'] (meaning path.toList))

/-- The part of a path before its last `/`; a path without one has no parent. -/
def parent (path : String) : String :=
  String.ofList ((path.toList.reverse.dropWhile (· != '/')).tail.reverse)

/-- The normal form of a path read from a directory.  A path that starts with `/` is read from the
root, and so is every path where there is no directory. -/
def join (directory path : String) : String :=
  if path.toList.head? = some '/' ∨ directory = "" then normalize path
  else normalize (directory ++ "/" ++ path)

end ShaderPass.VirtualPath
