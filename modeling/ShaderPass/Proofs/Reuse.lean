import Mathlib
import ShaderPass.Compiler

/-!
# Proofs/Reuse — a compiler that is used again compiles as a new one

    compiler ──compile s₁──▸ · ──compile s₂──▸ · ──▸ …
        ╲ reset           ╲ reset
         ╲_________________╲____ the same session each time

Whatever a compilation leaves behind, two sessions that were **set up alike** are the same after a
reset (`reset_eq`), and nothing but the set-up of a session is left of it.  No compilation changes
the set-up, so the results of a whole sequence are those of new compilers (`compileEach_eq`).
-/

namespace ShaderPass

open Preprocess (Session)

namespace Preprocess.Session

variable {p q r : Session}

/-- Whether two sessions have the same predefined macros and read sources under the same name. -/
structure SetUpAlike (p q : Session) : Prop where
  predefined : q.predefined = p.predefined
  rootUnit : q.rootUnit = p.rootUnit

namespace SetUpAlike

theorem refl (p : Session) : p.SetUpAlike p := ⟨rfl, rfl⟩

theorem trans (h : p.SetUpAlike q) (h' : q.SetUpAlike r) : p.SetUpAlike r :=
  ⟨h'.predefined.trans h.predefined, h'.rootUnit.trans h.rootUnit⟩

theorem reset (p : Session) (texts : List (String × String)) (basePath : String) :
    p.SetUpAlike (p.reset texts basePath) := ⟨rfl, rfl⟩

theorem tryProcess (p : Session) (source : String) :
    p.SetUpAlike (p.tryProcess source).2.2 := ⟨rfl, rfl⟩

theorem takeSourceMap (p : Session) : p.SetUpAlike p.takeSourceMap.2 := ⟨rfl, rfl⟩

end SetUpAlike

/-- A state that is cleared has nothing left but its macros. -/
theorem clear_eq (s : State) : s.clear = .initial s.macros := rfl

/-- **A reset leaves nothing of a session but its set-up**: macros that were defined, redefined or
undefined, groups that are still open, units on the chain or marked, and what was put out. -/
theorem reset_eq (h : p.SetUpAlike q) (texts : List (String × String)) (basePath : String) :
    q.reset texts basePath = p.reset texts basePath := by
  have hstate : (q.reset texts basePath).state = (p.reset texts basePath).state := by
    rw [Session.reset, Session.reset, clear_eq, clear_eq, h.predefined]
  have hroot : (q.reset texts basePath).rootUnit = (p.reset texts basePath).rootUnit := h.rootUnit
  have hpredefined : (q.reset texts basePath).predefined = (p.reset texts basePath).predefined :=
    h.predefined
  calc q.reset texts basePath
      = ⟨(q.reset texts basePath).state, (q.reset texts basePath).predefined, .ofTexts texts,
          VirtualPath.normalize basePath, (q.reset texts basePath).rootUnit, none⟩ := rfl
    _ = p.reset texts basePath := by rw [hstate, hroot, hpredefined]; rfl

end Preprocess.Session

namespace Compiler

variable {c d : Compiler} {config : Config}

/-- Whether two compilers have the same configuration, and sessions that were set up alike. -/
structure SetUpAlike (c d : Compiler) : Prop where
  config : d.config = c.config
  session : c.session.SetUpAlike d.session

/-- What a compilation gives depends on the set-up alone. -/
theorem SetUpAlike.compile (h : c.SetUpAlike d) (source : String) :
    (d.compile source).1 = (c.compile source).1 ∧
      (d.compile source).2.1 = (c.compile source).2.1 := by
  have hreset := Session.reset_eq h.session c.config.includeMap.entries c.config.basePath
  rw [Compiler.compile, Compiler.compile, h.config, hreset]
  split
  next => exact ⟨rfl, rfl⟩
  next => exact ⟨rfl, rfl⟩

/-- **No compilation changes the set-up**, whether it fails or not. -/
theorem setUpAlike_compile (c : Compiler) (source : String) :
    c.SetUpAlike (c.compile source).2.2 := by
  have hreset := Session.SetUpAlike.reset c.session c.config.includeMap.entries c.config.basePath
  have hrun := hreset.trans (.tryProcess _ source)
  rw [Compiler.compile]
  split
  next hr =>
    rw [hr] at hrun
    exact ⟨rfl, hrun⟩
  next hr =>
    rw [hr] at hrun
    exact ⟨rfl, hrun.trans (.takeSourceMap _)⟩

/-- Compiles some sources one after the other with one compiler: the shader or the failure, and the
notices, of each. -/
def compileEach (c : Compiler) :
    List String → List (Except CompileError CompiledShader × List Notice)
  | [] => []
  | source :: sources =>
    let (result, notices, c) := c.compile source
    (result, notices) :: c.compileEach sources

/-- Sources that are compiled with compilers set up alike give the same. -/
theorem compileEach_eq_map (h : c.SetUpAlike d) (sources : List String) :
    d.compileEach sources =
      sources.map fun source => ((c.compile source).1, (c.compile source).2.1) := by
  induction sources generalizing d with
  | nil => rfl
  | cons source sources ih =>
    have next : c.SetUpAlike (d.compile source).2.2 :=
      ⟨(setUpAlike_compile d source).config.trans h.config,
        h.session.trans (setUpAlike_compile d source).session⟩
    obtain ⟨hresult, hnotices⟩ := h.compile source
    show ((d.compile source).1, (d.compile source).2.1) ::
      (d.compile source).2.2.compileEach sources = _
    rw [hresult, hnotices, ih next, List.map_cons]

/-- A new compiler of a configuration that is accepted compiles as the compiler that it gives. -/
theorem compile_ofConfig (h : ofConfig config = .ok c) (source : String) :
    ShaderPass.compile source config = ((c.compile source).1, (c.compile source).2.1) := by
  rw [ShaderPass.compile, h]

/-- **Any sequence of compilations with one compiler gives what new compilers of its configuration
give**, source by source: the shaders, the failures with their positions, and the notices. -/
theorem compileEach_eq (h : ofConfig config = .ok c) (sources : List String) :
    c.compileEach sources = sources.map (ShaderPass.compile · config) := by
  rw [compileEach_eq_map ⟨rfl, .refl _⟩]
  exact List.map_congr_left fun source _ => (compile_ofConfig h source).symm

/-- A source that undefines a predefined macro and leaves a group open, then one that asks for the
macro. -/
theorem compileEach_eq_apply : ∃ c, ofConfig (Config.default.define "A" none) = .ok c ∧
    c.compileEach ["#undef A\n#if 1\n", "#ifndef A\n#error lost\n#endif\n"] =
      ["#undef A\n#if 1\n", "#ifndef A\n#error lost\n#endif\n"].map
        (ShaderPass.compile · (Config.default.define "A" none)) := by
  have accepted : (ofConfig (Config.default.define "A" none)).toOption.isSome = true := by cbv
  obtain ⟨c, hc⟩ := Option.isSome_iff_exists.1 accepted
  have h : ofConfig (Config.default.define "A" none) = .ok c := by
    cases hr : ofConfig (Config.default.define "A" none) with
    | error e =>
      rw [hr] at hc
      cases hc
    | ok c' =>
      rw [hr] at hc
      exact congrArg Except.ok (Option.some.inj hc)
  exact ⟨c, h, compileEach_eq h _⟩

end Compiler

end ShaderPass
