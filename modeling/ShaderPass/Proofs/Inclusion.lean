import ShaderPass.Proofs.Failures
import ShaderPass.Proofs.Preprocess.Names

/-!
# Proofs/Inclusion — which text a compilation splices in, and what it calls it

    configured           ./lib/a.glsl   lib\a.glsl   b.glsl
    in lib/c.glsl        #include "a.glsl"            lib/a.glsl   the text of lib\a.glsl
                         #include "/lib/../b.glsl"    b.glsl
                         #include "d.glsl"            unresolved, at the #

However the paths of a configuration and those of directives are spelled, a directive finds a text
under one path in normal form, and the text is known by this path everywhere.  So the three questions
that are asked of a text, whether it is being read, whether it is to be spliced in again, and where its
own paths are read from, have one answer for each text (`splices_of_compile`).
-/

namespace ShaderPass

open Preprocess
open Directive (parse?)

/-- The units of a compilation, with the directories that paths in them are read from: the source from
the base directory, and each text from the parent of the path in normal form that stands for it. -/
inductive Config.Gives (config : Config) (source : String) : Source.Unit → String → Prop
  | source : Gives config source ⟨config.rootUnit, source⟩ (VirtualPath.normalize config.basePath)
  | text {name text spelling : String} (stands : config.StandsFor name text spelling) :
      Gives config source ⟨name, text⟩ (VirtualPath.parent name)

namespace Compiler

variable {config : Config} {c d : Compiler} {source path name text : String} {x : Point} {s : State}
  {line : Directive.Line} {after : Lexeme.Cursor} {rest : List Char}

/-- What does not change in the course of a compilation is given by the configuration. -/
theorem settings_of_fresh (accepted : ofConfig config = .ok c) (alike : c.SetUpAlike d) :
    d.fresh.rootUnit = config.rootUnit ∧ d.fresh.settings.library = config.library ∧
      d.fresh.settings.basePath = VirtualPath.normalize config.basePath := by
  obtain ⟨hconfig, hroot⟩ := of_ofConfig accepted
  refine ⟨alike.session.rootUnit.trans hroot, ?_, ?_⟩
  · rw [← hconfig, ← alike.config]
    rfl
  · rw [← hconfig, ← alike.config]
    rfl

/-- **Every point of a compilation reads a unit under its one name.** -/
theorem gives_of_reached (accepted : ofConfig config = .ok c) (alike : c.SetUpAlike d)
    (reached : Reached d.fresh.settings (d.fresh.entry source) x) :
    ∃ u directory, config.Gives source u directory ∧ x.Reads u directory := by
  obtain ⟨root, library, basePath⟩ := settings_of_fresh accepted alike
  have reads : (d.fresh.entry source).Reads ⟨d.fresh.rootUnit, source⟩ d.fresh.basePath :=
    ⟨rfl, rfl, (placed_begin _ _ _ _).unit, rfl⟩
  rcases reads_of_reached reads (placed_begin _ _ _ _) reached with h | ⟨path, text, found, h⟩
  · have basePath : d.fresh.basePath = VirtualPath.normalize config.basePath := basePath
    rw [root, basePath] at h
    exact ⟨_, _, .source, h⟩
  · rw [library] at found
    obtain ⟨spelling, stands⟩ := Config.standsFor_iff.1 found
    exact ⟨_, _, .text stands, h⟩

/-- **Only the source, and texts under their paths in normal form, are marked.** -/
theorem marked_of_reached (accepted : ofConfig config = .ok c) (alike : c.SetUpAlike d)
    (reached : Reached d.fresh.settings (d.fresh.entry source) x) :
    ∀ name ∈ x.state.marked, name = config.rootUnit ∨ config.Knows name := by
  obtain ⟨root, library, -⟩ := settings_of_fresh accepted alike
  let Known (name : String) : Prop := name = config.rootUnit ∨ config.Knows name
  have hroot : Known (d.fresh.entry source).frame.name := .inl root
  have hlib : ∀ path, d.fresh.settings.library.contains path = true → Known path :=
    fun path found => .inr (Config.contains_library_iff.1 (library ▸ found))
  exact Preprocess.marked_of_reached hroot (List.forall_mem_nil _) hlib reached

/-- What a directive that asks for a text leads to where its path finds one: a failure if the text is
being read, a notice if it is not to be spliced in again, and otherwise a point that reads it. -/
inductive Splices (x : Point) (s : State) (line : Directive.Line) (after : Lexeme.Cursor)
    (name text : String) : Outcome × State → Prop
  | circular (reading : name ∈ x.state.chain) :
      Splices x s line after name text
        (.failed ⟨.circular (x.state.chain.reverse ++ [name]), s.position x.frame.origin⟩, s)
  | again (fresh : name ∉ x.state.chain) (marked : name ∈ x.state.marked) :
      Splices x s line after name text (.next (x.frame.afterLine after),
        (s.note ⟨.notSplicedAgain name, s.position x.frame.origin⟩).emitLineEnds x.frame.unit
          line.lineEnds)
  | splice (fresh : name ∉ x.state.chain) (unmarked : name ∉ x.state.marked)
      (reads : (s.entry ⟨name, text⟩).Reads ⟨name, text⟩ (VirtualPath.parent name)) :
      Splices x s line after name text
        (.splice ⟨name, text⟩ line.lineEnds (x.frame.afterLine after), s)

theorem splices_of_finds (accepted : ofConfig config = .ok c) (alike : c.SetUpAlike d)
    (reads : AtDirective x.frame x.state s line after) (active : x.state.isActive = true)
    (parses : parse? line.text = some (.splice path, rest))
    (finds : config.Finds x.frame.directory path name text) :
    Splices x s line after name text (x.step d.fresh.settings) := by
  obtain ⟨-, library, basePath⟩ := settings_of_fresh accepted alike
  obtain ⟨resolves, found⟩ := Config.finds_iff.1 finds
  rw [← library, ← basePath] at resolves
  have step : x.step d.fresh.settings = _ := step_of_resolves reads active parses resolves
  rw [step, library, found, Option.getD_some]
  by_cases hchain : name ∈ x.state.chain
  · rw [if_pos hchain]
    exact .circular hchain
  by_cases hmarked : name ∈ x.state.marked
  · rw [if_neg hchain, if_pos hmarked]
    exact .again hchain hmarked
  · rw [if_neg hchain, if_neg hmarked]
    exact .splice hchain hmarked (reads_entry s ⟨name, text⟩)

/-- A source that is not accepted is not compiled. -/
theorem compile_of_refused {e : Preprocess.Error} (h : (d.fresh.tryProcess source).1 = .error e) :
    (d.compile source).1 = .error (.preprocess e) := by
  have session : d.session.reset d.config.includeMap.entries d.config.basePath = d.fresh := rfl
  rw [compile, session]
  obtain ⟨⟨result, notices, after⟩, run⟩ : ∃ r, d.fresh.tryProcess source = r := ⟨_, rfl⟩
  rw [run] at h ⊢
  obtain rfl : result = .error e := h
  rfl

/-- A path that finds nothing fails the compilation, at the directive. -/
theorem compile_of_unknown (accepted : ofConfig config = .ok c) (alike : c.SetUpAlike d)
    (reached : Reached d.fresh.settings (d.fresh.entry source) x)
    (reads : AtDirective x.frame x.state s line after) (active : x.state.isActive = true)
    (parses : parse? line.text = some (.splice path, rest))
    (unknown : ∀ name ∈ config.candidates x.frame.directory path, ¬config.Knows name) :
    (d.compile source).1 =
      .error (.preprocess ⟨.unresolved path, x.state.position x.frame.origin⟩) := by
  obtain ⟨-, library, basePath⟩ := settings_of_fresh accepted alike
  have unresolved := Config.resolve?_eq_none_iff.2 unknown
  rw [← library, ← basePath] at unresolved
  have step : x.step d.fresh.settings = _ := step_of_unresolved reads active parses unresolved
  exact compile_of_refused (Session.tryProcess_of_reached reached step)

/-- **A path in a directive means one text, which has one name.**  Wherever a compilation gets to, it
reads a unit under its name, and only names of units are marked: of the one that asks for that, where
it does.  A directive that asks for a text tries the path from the directory of the unit, from the base
directory and from the root, and what it finds under the first of these that is the normal form of a
configured path is the text of the greatest configured path with this normal form.  That text is then
read under this name, unless it is being read already, which is a failure, or marked.  If there is no
such path the compilation fails, at the directive. -/
theorem splices_of_compile (accepted : ofConfig config = .ok c) (alike : c.SetUpAlike d)
    (reached : Reached d.fresh.settings (d.fresh.entry source) x) :
    ∃ u directory, config.Gives source u directory ∧ x.Reads u directory ∧
      (∀ name ∈ x.state.marked, name = config.rootUnit ∨ config.Knows name) ∧
      (x.state.isActive = true → ∀ s line after rest, AtDirective x.frame x.state s line after →
        (parse? line.text = some (.once, rest) → ∃ f s', x.step d.fresh.settings = (.next f, s') ∧
          s'.marked = u.name :: x.state.marked) ∧
        ∀ path, parse? line.text = some (.splice path, rest) →
          (∃ name text, config.Finds directory path name text ∧
            Splices x s line after name text (x.step d.fresh.settings)) ∨
          (∀ name ∈ config.candidates directory path, ¬config.Knows name) ∧
            ∃ e, (d.compile source).1 = .error e ∧
              e.diagnostic = .source .directive ("unresolved include \"" ++ path ++ "\"")
                (u.position x.frame.cursor.location.offset)) := by
  obtain ⟨u, directory, gives, reads⟩ := gives_of_reached accepted alike reached
  refine ⟨u, directory, gives, reads, marked_of_reached accepted alike reached, ?_⟩
  intro active s line after rest atDirective
  refine ⟨fun parses => ?_, fun path parses => ?_⟩
  · obtain ⟨s', step, marked⟩ : ∃ s', x.step d.fresh.settings = (.next (x.frame.afterLine after), s') ∧
        s'.marked = x.frame.name :: x.state.marked := step_of_once atDirective active parses
    exact ⟨_, s', step, reads.name ▸ marked⟩
  · rw [← reads.directory]
    cases resolves : config.library.resolve? x.frame.directory
        (VirtualPath.normalize config.basePath) path with
    | some name =>
      have contains : config.library.contains name = true := List.find?_some resolves
      obtain ⟨text, found⟩ := Option.isSome_iff_exists.1 contains
      have finds : config.Finds x.frame.directory path name text :=
        Config.finds_iff.2 ⟨resolves, found⟩
      exact .inl ⟨name, text, finds,
        splices_of_finds accepted alike atDirective active parses finds⟩
    | none =>
      have unknown := Config.resolve?_eq_none_iff.1 resolves
      have fails := compile_of_unknown accepted alike reached atDirective active parses unknown
      exact .inr ⟨unknown, _, fails, by rw [← reads.position]; rfl⟩

/-- Two spellings of one path, the greater of which counts. -/
theorem splices_of_compile_apply :
    let config := (Config.default.addText "./a" "1").addText "a" "2"
    let source := "#include \"b/../a\""
    ∃ c s line after, ofConfig config = .ok c ∧
      Splices (c.fresh.entry source) s line after "a" "2"
        ((c.fresh.entry source).step c.fresh.settings) := by
  intro config source
  let c : Compiler := ⟨config, Session.new.setRootUnit config.rootUnit⟩
  let x := c.fresh.entry source
  have accepted : ofConfig config = .ok c := rfl
  have reads : AtDirective x.frame x.state x.state ⟨"#include \"b/../a\"", []⟩ ⟨[], ⟨17, 1, 18⟩⟩ :=
    ⟨rfl, ⟨⟨.punct, "#"⟩, ⟨"include \"b/../a\"".toList, ⟨1, 1, 2⟩⟩, by cbv, by cbv, by cbv⟩, by cbv⟩
  have parses : parse? "#include \"b/../a\"" = some (.splice "b/../a", []) := by cbv
  have resolves : config.library.resolve? "" "" "b/../a" = some "a" := by cbv
  have found : config.library.text? "a" = some "2" := by cbv
  obtain ⟨u, directory, -, readsUnit, -, directives⟩ :=
    splices_of_compile accepted ⟨rfl, .refl _⟩ (reached_iff.2 (.refl (a := x)))
  obtain rfl : "" = directory := readsUnit.directory
  rcases (directives rfl _ _ _ _ reads).2 _ parses with ⟨name, text, finds, splices⟩ | ⟨unknown, -⟩
  · obtain ⟨resolves', found'⟩ := Config.finds_iff.1 finds
    obtain rfl := Option.some.inj (resolves'.symm.trans resolves)
    obtain rfl := Option.some.inj (found'.symm.trans found)
    exact ⟨c, _, _, _, accepted, splices⟩
  · cases (Config.resolve?_eq_none_iff.2 unknown).symm.trans resolves

end Compiler

end ShaderPass
