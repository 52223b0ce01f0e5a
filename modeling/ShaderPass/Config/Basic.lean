import ShaderPass.Config.Texts
import ShaderPass.Dictionary
import ShaderPass.Preprocess.Session

/-!
# Config/Basic — what a compilation starts from

A configuration names the source, gives the directory its paths are read from, the macros that are
there from the start, and the texts that can be spliced in.
-/

namespace ShaderPass

/-- A macro that is there from the start; without a body it stands for `1`. -/
structure PredefinedMacro where
  name : String
  body : Option String
  deriving DecidableEq, Repr, Inhabited

/-- A configuration. -/
structure Config where
  rootUnit : String
  basePath : String
  predefined : List PredefinedMacro
  includes : Texts
  deriving DecidableEq, Repr

namespace Config

/-- The configuration that nothing is said about. -/
def default : Config := ⟨Preprocess.Session.defaultRootUnit, "", [], .empty⟩

instance : Inhabited Config := ⟨default⟩

/-- Adds a predefined macro, in place of all of the same name. -/
def define (c : Config) (name : String) (body : Option String) : Config :=
  { c with predefined := c.predefined.filter (·.name ≠ name) ++ [⟨name, body⟩] }

/-- Adds a text, in place of the one under the same path. -/
def addText (c : Config) (path text : String) : Config :=
  { c with includes := c.includes.insert path text }

/-- The texts under their paths in normal form; of those with one normal form that of the greatest
path counts. -/
def includeMap (c : Config) : Dictionary String String :=
  .ofList (c.includes.entries.map fun (path, text) => (VirtualPath.normalize path, text))

/-- The library that sources are compiled with. -/
def library (c : Config) : Preprocess.Library := .ofTexts c.includeMap.entries

end Config

end ShaderPass
