import ShaderPass.Preprocess.Run

/-!
# Preprocess/Session — a preprocessor that is used again and again

A session keeps its macros from one source to the next until it is reset.  **Predefined** macros
come back with every reset; predefining a name again moves it to the end of the order in which they
do.  The source map of the last source and the last failure that was not handed to the caller can
be asked for.
-/

namespace ShaderPass.Preprocess

open Macro (Table Definition)

/-- A preprocessor. -/
structure Session where
  /-- The macros, and what the last run has left. -/
  state : State
  /-- The names and bodies of the predefined macros, in order. -/
  predefined : List (String × String)
  library : Library
  /-- The normal form of the directory that paths in a source are read from. -/
  basePath : String
  /-- The name that a source is read under. -/
  rootUnit : String
  lastError : Option Error
  deriving DecidableEq, Repr

namespace Session

/-- The name that a source is read under unless another is set. -/
def defaultRootUnit : String := "shader"

/-- A new session. -/
def new : Session := ⟨.initial .empty, [], .empty, "", defaultRootUnit, none⟩

instance : Inhabited Session := ⟨new⟩

/-- The macros that are there now. -/
def macros (p : Session) : Table := p.state.macros

/-- The source map of the last source. -/
def sourceMap (p : Session) : Source.Map := p.state.sourceMap

/-- Sets the name that a source is read under. -/
def setRootUnit (p : Session) (name : String) : Session := { p with rootUnit := name }

/-- Takes a predefined macro into a table, if its body can be read. -/
def seed (macros : Table) (entry : String × String) : Table :=
  match Definition.read entry.1 none entry.2 with
  | .ok d => macros.define d
  | .error _ => macros

/-- Starts over with the given texts and base directory and with the predefined macros alone. -/
def reset (p : Session) (texts : List (String × String)) (basePath : String) : Session :=
  { p with
    state := { p.state with macros := p.predefined.foldl seed .empty }.clear
    library := .ofTexts texts
    basePath := VirtualPath.normalize basePath
    lastError := none }

/-- The body of a predefined macro that is given none. -/
def defaultBody : String := "1"

/-- Adds a predefined macro. -/
def predefine (p : Session) (name : String) (body : Option String) : Except Error Session :=
  let body := body.getD defaultBody
  match Definition.read name none body with
  | .error (fault, location) =>
    .error ⟨.predefined name fault, ⟨"<predefined>", 1, location.column⟩⟩
  | .ok d =>
    .ok { p with
      predefined := p.predefined.filter (·.1 ≠ name) ++ [(name, body)]
      state := { p.state with macros := p.macros.define d } }

/-- What does not change while a source is run. -/
def settings (p : Session) : Settings := ⟨p.library, p.basePath, p.predefined.map (·.1)⟩

/-- The failure that ends the run of a source, if one does, and the state at its end.  Of what
earlier runs have left only the macros count. -/
def runSource (p : Session) (source : String) : Option Error × State :=
  Preprocess.runSource p.settings p.state.clear p.rootUnit source

/-- Preprocesses a source: the output or the failure, the notices, and the session after it. -/
def tryProcess (p : Session) (source : String) : Except Error String × List Notice × Session :=
  let (error, s) := p.runSource source
  let result :=
    match error with
    | some e => .error e
    | none => .ok s.output
  (result, s.notices.toList, { p with state := s, lastError := none })

/-- Preprocesses a source and keeps a failure in the session. -/
def process (p : Session) (source : String) : Option String × List LogEntry × Session :=
  match p.tryProcess source with
  | (.ok output, notices, p) => (some output, notices.map .warning, p)
  | (.error e, notices, p) =>
    (none, notices.map .warning ++ [.failure e.diagnostic], { p with lastError := some e })

/-- The source map of the last source, which the session does not keep, nor the output it is of. -/
def takeSourceMap (p : Session) : Source.Map × Session :=
  (p.sourceMap, { p with state := { p.state with units := #[], emitted := #[] } })

end Session

end ShaderPass.Preprocess
