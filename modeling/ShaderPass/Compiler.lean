import ShaderPass.Assembly
import ShaderPass.Config.Basic

/-!
# Compiler — from a source to a compiled shader

A compilation preprocesses a source, reads its blocks and assembles its passes, and the first of
these that fails ends it.  A compiler can be used for any number of sources; each compilation starts
from the configuration alone.
-/

namespace ShaderPass

/-- A failure of a compilation. -/
inductive CompileError
  | preprocess (e : Preprocess.Error)
  | shader (e : Shader.Error)
  | assembly (e : Assembly.Error)
  deriving DecidableEq, Repr

namespace CompileError

/-- The report of a failure. -/
def diagnostic : CompileError → Diagnostic
  | .preprocess e => e.diagnostic
  | .shader e => e.diagnostic
  | .assembly e => e.diagnostic

/-- Where a compilation failed. -/
def position : CompileError → Source.Position
  | .preprocess e => e.position
  | .shader e => e.position
  | .assembly e => e.position

end CompileError

/-- The compiled shader of a preprocessed text, with the notices on the way. -/
def compileText (text : String) (map : Source.Map) :
    Except CompileError CompiledShader × List Notice :=
  match Shader.parse text map with
  | ⟨.error e, notices⟩ => (.error (.shader e), notices)
  | ⟨.ok tree, notices⟩ => ((Assembly.assemble text map tree).mapError .assembly, notices)

/-- A compiler. -/
structure Compiler where
  config : Config
  session : Preprocess.Session
  deriving DecidableEq, Repr

namespace Compiler

/-- The compiler of a configuration, unless the body of a predefined macro cannot be read. -/
def ofConfig (c : Config) : Except CompileError Compiler :=
  let session := Preprocess.Session.new.setRootUnit c.rootUnit
  match c.predefined.foldlM (fun p m => p.predefine m.name m.body) session with
  | .ok session => .ok ⟨c, session⟩
  | .error e => .error (.preprocess e)

/-- Compiles a source: the shader or the failure, the notices, and the compiler after it. -/
def compile (c : Compiler) (source : String) :
    Except CompileError CompiledShader × List Notice × Compiler :=
  let session := c.session.reset c.config.includeMap.entries c.config.basePath
  match session.tryProcess source with
  | (.error e, notices, session) => (.error (.preprocess e), notices, { c with session })
  | (.ok text, notices, session) =>
    let (map, session) := session.takeSourceMap
    let (result, more) := compileText text map
    (result, notices ++ more, { c with session })

end Compiler

/-- Compiles a source with a new compiler of a configuration. -/
def compile (source : String) (config : Config) :
    Except CompileError CompiledShader × List Notice :=
  match Compiler.ofConfig config with
  | .error e => (.error e, [])
  | .ok compiler =>
    let (result, notices, _) := compiler.compile source
    (result, notices)

end ShaderPass
