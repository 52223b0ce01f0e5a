import ShaderPass.Proofs.Config
import ShaderPass.Proofs.Preprocess.Failures
import ShaderPass.Proofs.Reuse
import ShaderPass.Proofs.Shader.Positions

/-!
# Proofs/Failures — where a compilation fails

    source ──tryProcess──▸ text ──parse──▸ tree ──assemble──▸ shader
              │ position     │ offset        │ offset
              ▼              ▼ map           ▼ map
            units of the configuration: the source, and the texts under their paths

The stages find the positions of their failures each in its own way, but all of them are **genuine**:
preprocessing points into a unit that it has read, and the stages after it to an offset of the
preprocessed text, which the source map takes to a unit (`Compiler.genuine_of_compile`).  The one
exception is a preprocessed text that is empty.  Its source map has no run to take an offset to, and
the failure, that there is no sub-shader, is at a position that is not known
(`Compiler.not_genuine_of_empty`).
-/

namespace ShaderPass

open Preprocess (Session)
open Source (Genuine)

/-- The units that a compilation of a source can read: the source under the name that the
configuration gives it, and the texts of the configuration, each under its path in normal form. -/
def Config.Reads (config : Config) (source : String) (u : Source.Unit) : Prop :=
  u = ⟨config.rootUnit, source⟩ ∨
    (∃ path, (path, u.text) ∈ config.includes.entries ∧ u.name = VirtualPath.normalize path) ∧
      config.library.text? u.name = some u.text

theorem Source.Genuine.mono {Known Known' : Source.Unit → Prop} {position : Source.Position}
    (h : Genuine Known position) (hk : ∀ u, Known u → Known' u) : Genuine Known' position := by
  obtain ⟨u, known, place⟩ := h
  exact ⟨u, hk u known, place⟩

namespace Compiler

variable {config : Config} {c d : Compiler} {source text : String} {e : CompileError}

theorem rootUnit_of_foldlM {ms : List PredefinedMacro} {p q : Session}
    (h : ms.foldlM (fun p m => p.predefine m.name m.body) p = .ok q) : q.rootUnit = p.rootUnit := by
  induction ms generalizing p with
  | nil =>
    cases h
    rfl
  | cons m ms ih =>
    rw [List.foldlM_cons] at h
    cases hm : p.predefine m.name m.body with
    | error e =>
      rw [hm] at h
      cases h
    | ok p' =>
      rw [hm] at h
      refine (ih h).trans ?_
      unfold Session.predefine at hm
      simp only at hm
      split at hm
      next => cases hm
      next =>
        cases hm
        rfl

/-- A compiler of a configuration has it, and reads sources under the name that it gives. -/
theorem of_ofConfig (h : ofConfig config = .ok c) :
    c.config = config ∧ c.session.rootUnit = config.rootUnit := by
  unfold ofConfig at h
  simp only at h
  split at h
  next hfold =>
    cases h
    exact ⟨rfl, rootUnit_of_foldlM hfold⟩
  next => cases h

/-- The session that a compilation begins with. -/
def fresh (c : Compiler) : Session :=
  c.session.reset c.config.includeMap.entries c.config.basePath

/-- What a compilation makes of a source before it is parsed. -/
def expanded (c : Compiler) (source : String) : Except Preprocess.Error String :=
  (c.fresh.tryProcess source).1

/-- A compilation reads nothing but what its configuration lets it. -/
theorem reads_of_fresh (accepted : ofConfig config = .ok c) (alike : c.SetUpAlike d)
    {u : Source.Unit} (h : d.fresh.Reads source u) : config.Reads source u := by
  obtain ⟨hconfig, hroot⟩ := of_ofConfig accepted
  have root : d.fresh.rootUnit = config.rootUnit := alike.session.rootUnit.trans hroot
  have library : d.fresh.library = config.library := by
    rw [← hconfig, ← alike.config]
    rfl
  rcases h with rfl | h
  · exact .inl (by rw [root])
  · rw [library] at h
    obtain ⟨path, stands⟩ := Config.standsFor_iff.1 h
    exact .inr ⟨⟨path, stands.configured, stands.normal.symm⟩, h⟩

/-- A compilation fails where its source is not accepted, or else at an offset of the text. -/
theorem position_of_compile (fails : (c.compile source).1 = .error e) :
    (∃ e', c.expanded source = .error e' ∧ e.position = e'.position) ∨
      ∃ text i, c.expanded source = .ok text ∧
        e.position = (c.fresh.tryProcess source).2.2.sourceMap.position i := by
  have session : c.session.reset c.config.includeMap.entries c.config.basePath = c.fresh := rfl
  rw [compile, session] at fails
  rw [expanded]
  obtain ⟨⟨result, notices, after⟩, run⟩ : ∃ r, c.fresh.tryProcess source = r := ⟨_, rfl⟩
  rw [run] at fails ⊢
  cases result with
  | error e' =>
    obtain rfl := Except.error.inj fails
    exact .inl ⟨e', rfl, rfl⟩
  | ok text =>
    obtain ⟨i, position⟩ := exists_position_of_compileText fails
    exact .inr ⟨text, i, rfl, position⟩

/-- **A compilation that fails points to a genuine position**, whatever the compiler was used for
before: to an offset of the source or of a text of the configuration, or to its end, on a line that
is counted from 1.  Only where nothing is left of the source before it is parsed, the position is
not known. -/
theorem genuine_of_compile (accepted : ofConfig config = .ok c) (alike : c.SetUpAlike d)
    (fails : (d.compile source).1 = .error e) :
    (d.expanded source ≠ .ok "" →
      Genuine (config.Reads source) e.position ∧ 1 ≤ e.position.line) ∧
    (d.expanded source = .ok "" → e.position = .unknown) := by
  have genuine : ∀ {position}, Genuine (d.fresh.Reads source) position →
      Genuine (config.Reads source) position ∧ 1 ≤ position.line := fun h =>
    ⟨h.mono fun u => reads_of_fresh accepted alike, h.one_le_line⟩
  rcases position_of_compile fails with ⟨e', refused, position⟩ | ⟨text, i, accepts, position⟩
  · refine ⟨fun _ => ?_, fun empty => ?_⟩
    · exact position ▸ genuine (Session.genuine_of_tryProcess refused)
    · cases refused.symm.trans empty
  · refine ⟨fun notEmpty => ?_, fun empty => ?_⟩
    · have text_ne : text ≠ "" := fun h => notEmpty (h ▸ accepts)
      exact position ▸ genuine (Session.genuine_of_sourceMap accepts text_ne i)
    · exact position.trans (Session.unknown_of_sourceMap empty i)

/-- A text of the configuration that ends a group that it has not opened. -/
theorem genuine_of_compile_apply :
    let config := Config.default.addText "./a" "#endif"
    ∃ c e, ofConfig config = .ok c ∧ (c.compile "#include \"a\"\n").1 = .error e ∧
      e.position = ⟨"a", 1, 1⟩ ∧ Genuine (config.Reads "#include \"a\"\n") e.position := by
  intro config
  let c : Compiler := ⟨config, Session.new.setRootUnit config.rootUnit⟩
  let e : Preprocess.Error := ⟨.withoutGroup .endGroup, ⟨"a", 1, 1⟩⟩
  have accepted : ofConfig config = .ok c := rfl
  have refused : c.expanded "#include \"a\"\n" = .error e := by cbv
  have fails : (c.compile "#include \"a\"\n").1 = .error (.preprocess e) := by cbv
  refine ⟨c, .preprocess e, accepted, fails, rfl, ?_⟩
  have nonempty : c.expanded "#include \"a\"\n" ≠ .ok "" := by
    intro h
    cases refused.symm.trans h
  exact ((genuine_of_compile accepted ⟨rfl, .refl _⟩ fails).1 nonempty).1

/-- **The failure of a source that is empty has no genuine position.** -/
theorem not_genuine_of_empty : ∃ c e, ofConfig Config.default = .ok c ∧
    (c.compile "").1 = .error e ∧ e.position = .unknown ∧
      ¬Genuine (Config.default.Reads "") e.position := by
  let c : Compiler := ⟨Config.default, Session.new.setRootUnit Config.default.rootUnit⟩
  let e : Shader.Error := ⟨.noSubShader, .unknown⟩
  have fails : (c.compile "").1 = .error (.shader e) := by cbv
  exact ⟨c, .shader e, rfl, fails, rfl, fun h => absurd h.one_le_line (by decide)⟩

end Compiler

end ShaderPass
