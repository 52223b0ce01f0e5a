import ShaderPass.Config.Basic

/-!
# Config/Directory — taking in the shader files of a directory

A directory is walked depth first, with the entries of each directory in the order of their names.
Of its files those with an extension for shaders are taken in, each under its path in the directory;
the first of these that is no UTF-8 text ends the walk.
-/

namespace ShaderPass

/-- A file with its bytes, or a directory with its entries under their names. -/
inductive DirectoryEntry
  | file (bytes : ByteArray)
  | directory (entries : List (String × DirectoryEntry))

namespace DirectoryEntry

/-- The extensions of shader files. -/
def shaderExtensions : List String := ["glsl", "vert", "frag", "gs", "shader", "inc"]

/-- The part of a name after its last dot, unless that dot is the first character. -/
def extension? (name : String) : Option String :=
  match name.toList.reverse.span (· != '.') with
  | (after, _ :: _ :: _) => some (String.ofList after.reverse)
  | _ => none

/-- Whether a name is that of a shader file. -/
def isShaderName (name : String) : Bool :=
  (extension? name).any fun e => shaderExtensions.contains e

/-- Entries in the order of their names. -/
def sortByName (entries : List (String × DirectoryEntry)) : List (String × DirectoryEntry) :=
  entries.mergeSort fun a b => decide (a.1 ≤ b.1)

/-- A path in a directory that is itself reached by a path. -/
def pathIn (directory name : String) : String :=
  if directory = "" then name else directory ++ "/" ++ name

mutual

/-- An entry with the entries of all directories in it in order. -/
def sorted : DirectoryEntry → DirectoryEntry
  | .file bytes => .file bytes
  | .directory entries => .directory (sortByName (sortedEntries entries))

/-- Entries, each with the entries of all directories in it in order. -/
def sortedEntries : List (String × DirectoryEntry) → List (String × DirectoryEntry)
  | [] => []
  | (name, e) :: es => (name, sorted e) :: sortedEntries es

end

mutual

/-- The shader files of an entry at a path, in the order in which they stand. -/
def shaderFiles (path name : String) : DirectoryEntry → List (String × ByteArray)
  | .file bytes => if isShaderName name then [(path, bytes)] else []
  | .directory entries => shaderFilesIn path entries

/-- The shader files of the entries of a directory at a path. -/
def shaderFilesIn (path : String) : List (String × DirectoryEntry) → List (String × ByteArray)
  | [] => []
  | (name, e) :: es => shaderFiles (pathIn path name) name e ++ shaderFilesIn path es

end

end DirectoryEntry

namespace Config

/-- Takes in files until one is no text: the configuration, and how many there were or the path of
the one that is no text. -/
def addFiles (c : Config) : List (String × ByteArray) → Config × Except String Nat
  | [] => (c, .ok 0)
  | (path, bytes) :: files =>
    match String.fromUTF8? bytes with
    | none => (c, .error path)
    | some text =>
      let (c, result) := (c.addText path text).addFiles files
      (c, result.map (· + 1))

/-- Takes in the shader files of a directory.  What is no directory fails as a whole, under the
empty path. -/
def addDirectory (c : Config) : Option DirectoryEntry → Config × Except String Nat
  | some (.directory entries) =>
    c.addFiles (DirectoryEntry.shaderFiles "" "" (DirectoryEntry.directory entries).sorted)
  | _ => (c, .error "")

end Config

end ShaderPass
