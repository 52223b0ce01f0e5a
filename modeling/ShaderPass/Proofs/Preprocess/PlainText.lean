import Mathlib
import ShaderPass.Proofs.Lexeme.Rescan
import ShaderPass.Proofs.Macro.Equations
import ShaderPass.Proofs.Preprocess.Causality

/-!
# Proofs/Preprocess/PlainText — text in which nothing is to be done

    source   a  ␣  #  ⏎          waits   a ␣ # ⏎          runs   └── 0, advancing ──┘
             0  1  2  3                  0 1 2 3                 0                  4

A text is **plain** when no line of it starts with a `#` and no name in it has a macro.  All of it
waits up to its end, as no directive puts out a part before, and expansion leaves it as it is.  Each
token goes on where the one before it ends, in the output as in the source, so the runs of the source
map are joined to one.  Hence a plain source comes out as it is, mapped to itself
(`tryProcess_plain`).
-/

namespace ShaderPass

open Lexeme (Cursor)
open Macro (Table Token)

namespace Source

/-! ## A copy of a unit -/

/-- Whether some pieces copy a unit from an offset on, each from where the one before it ends. -/
def Piece.Copy (unit : Nat) : Nat → List Piece → Prop
  | _, [] => True
  | offset, p :: ps =>
    p.unit = unit ∧ p.offset = offset ∧ p.advancing = true ∧ Copy unit (offset + p.length) ps

/-- The runs of an output that is the start of a unit: one, if it is not empty. -/
def copied (unit size : Nat) : Array Run := if size = 0 then #[] else #[⟨0, size, unit, 0, true⟩]

variable {unit size : Nat} {p : Piece} {ps : List Piece}

/-- A piece that goes on with a copy lengthens its run. -/
theorem push_copied (units : Array Unit) (hunit : p.unit = unit) (hoffset : p.offset = size)
    (hadvancing : p.advancing = true) : Map.push ⟨units, copied unit size⟩ (p.run size) =
      ⟨units, copied unit (size + p.length)⟩ := by
  have hrun : p.run size = ⟨size, size + p.length, unit, size, true⟩ := by
    rw [Piece.run, hunit, hoffset, hadvancing]
  rw [hrun, Map.push]
  by_cases hp : p.length = 0
  · rw [hp]
    exact if_pos rfl
  have hstop : size ≠ size + p.length := by omega
  have hlonger : size + p.length ≠ 0 := by omega
  rw [if_neg hstop, copied, copied, if_neg hlonger]
  by_cases hsize : size = 0
  · subst hsize
    rfl
  · have continued : Run.continuedBy ⟨0, size, unit, 0, true⟩
        ⟨size, size + p.length, unit, size, true⟩ = true := by
      simp [Run.continuedBy, Run.nextOffset, Run.length]
    rw [if_neg hsize]
    exact if_pos continued

theorem record_copy (units : Array Unit) (h : Piece.Copy unit size ps) :
    Piece.record size ⟨units, copied unit size⟩ ps =
      ⟨units, copied unit (size + Piece.size ps)⟩ := by
  induction ps generalizing size with
  | nil => rfl
  | cons p ps ih =>
    obtain ⟨hunit, hoffset, hadvancing, hps⟩ := h
    rw [Piece.record, push_copied units hunit hoffset hadvancing, ih hps, Piece.size_cons,
      Nat.add_assoc]

/-- **The map of a copy has one run**, or none if the copy is empty. -/
theorem map_copy (units : Array Unit) (h : Piece.Copy unit 0 ps) :
    Piece.map units ps = ⟨units, copied unit (Piece.size ps)⟩ := by
  have recorded := record_copy units h
  rwa [Nat.zero_add] at recorded

end Source

namespace Lexeme

variable {ls before : List Lexeme} {l : Lexeme}

/-- Whether all lexemes after the last line end are trivia. -/
def AtLineStart (ls : List Lexeme) : Prop :=
  ∀ l ∈ ls.reverse.takeWhile (·.kind != .newline), l.isTrivia = true

theorem atLineStart_newline (ls : List Lexeme) (h : l.kind = .newline) :
    AtLineStart (ls ++ [l]) := by
  unfold AtLineStart
  rw [List.reverse_append, List.reverse_singleton, List.singleton_append,
    List.takeWhile_cons_of_neg (by simp [h])]
  exact List.forall_mem_nil _

theorem atLineStart_trivia (h : AtLineStart ls) (hl : l.isTrivia = true) :
    AtLineStart (ls ++ [l]) := by
  have noNewline : l.kind ≠ .newline := by
    intro hk
    rw [isTrivia, hk] at hl
    cases hl
  unfold AtLineStart
  rw [List.reverse_append, List.reverse_singleton, List.singleton_append,
    List.takeWhile_cons_of_pos (by simpa using noNewline)]
  exact List.forall_mem_cons.2 ⟨hl, h⟩

/-- Whether no `#` is the first lexeme on a line that is not trivia, after some lexemes before. -/
def NoDirective (before ls : List Lexeme) : Prop :=
  ∀ m l after, ls = m ++ l :: after → AtLineStart (before ++ m) → l.isPunct '#' = false

theorem NoDirective.head (h : NoDirective before (l :: ls)) (start : AtLineStart before) :
    l.isPunct '#' = false := h [] l ls rfl (by rwa [List.append_nil])

theorem NoDirective.tail (h : NoDirective before (l :: ls)) : NoDirective (before ++ [l]) ls := by
  rintro m k after rfl start
  rw [List.append_assoc] at start
  exact h (l :: m) k after rfl start

theorem noDirective_cons : NoDirective before (l :: ls) ↔
    (AtLineStart before → l.isPunct '#' = false) ∧ NoDirective (before ++ [l]) ls := by
  refine ⟨fun h => ⟨h.head, h.tail⟩, fun ⟨head, tail⟩ m k after hls start => ?_⟩
  cases m with
  | nil =>
    obtain ⟨rfl, rfl⟩ := List.cons.inj hls
    exact head (by rwa [List.append_nil] at start)
  | cons l m =>
    obtain ⟨rfl, rfl⟩ := List.cons.inj hls
    exact tail m k after rfl (by rwa [List.append_assoc])

instance (ls : List Lexeme) : Decidable (AtLineStart ls) :=
  inferInstanceAs (Decidable (∀ l ∈ ls.reverse.takeWhile _, l.isTrivia = true))

instance decidableNoDirective : ∀ before ls : List Lexeme, Decidable (NoDirective before ls)
  | _, [] => isTrue fun _ _ _ h => absurd h.symm (by simp)
  | before, l :: ls =>
    have := decidableNoDirective (before ++ [l]) ls
    decidable_of_iff _ noDirective_cons.symm

end Lexeme

namespace Preprocess

open Lexeme (AtLineStart NoDirective)

variable {env : Settings} {f : Frame} {s s₁ : State} {macros : Table} {source : String}
  {c : Cursor} {before ls : List Lexeme}

/-- Whether a text is **plain** under some macros: it is read strictly without a fault, no line of it
starts with a `#`, and no identifier in it names a macro. -/
def Plain (macros : Table) (source : String) : Prop :=
  ∃ ls, Lexeme.ofText source = .ok ls ∧ NoDirective [] ls ∧
    ∀ l ∈ ls, l.kind = .identifier → macros.isDefined l.text = false

/-! ## What waits -/

/-- The tokens of a unit from a cursor on. -/
def verbatim (unit : Nat) (c : Cursor) : List Token :=
  (c.lexemes .strict).1.map fun r => ⟨r.1, ⟨unit, r.2.offset⟩, true, []⟩

theorem verbatim_of_next {unit : Nat} {l : Lexeme} {c' : Cursor}
    (h : c.next .strict = .ok (some (l, c'))) :
    verbatim unit c = ⟨l, ⟨unit, c.location.offset⟩, true, []⟩ :: verbatim unit c' := by
  rw [verbatim, Cursor.lexemes_of_next h]
  rfl

/-- **The tokens of a unit copy it.** -/
theorem copy_verbatim (unit : Nat) (c : Cursor) : Source.Piece.Copy unit c.location.offset
    ((verbatim unit c).map fun t => (Emission.token t).piece) := by
  induction c using Lexeme.Cursor.lexemes.induct .strict with
  | case1 c fault next =>
    rw [verbatim, Cursor.lexemes_of_fault next]
    trivial
  | case2 c next =>
    rw [verbatim, Cursor.lexemes_of_atEnd next]
    trivial
  | case3 c l c' next _ _ _ _ ih =>
    rw [verbatim_of_next next]
    refine ⟨rfl, rfl, rfl, ?_⟩
    rw [(Cursor.reads_of_next next).offset] at ih
    exact ih

/-- The texts of the tokens of a unit are the text. -/
theorem output_verbatim (unit : Nat) (h : Lexeme.ofText source = .ok ls) :
    Source.Piece.output ((verbatim unit (.ofString source)).map fun t => (Emission.token t).piece) =
      source := by
  have chars := Lexeme.toList_of_ofText h
  obtain ⟨-, rfl⟩ := Lexeme.lexemes_of_ofText h
  refine String.toList_injective ?_
  rw [chars, Source.Piece.output, verbatim, List.map_map, List.map_map, String.toList_join,
    Lexeme.chars, List.flatMap_map, List.flatMap_map]
  rfl

/-- Macros replace nothing in a plain text. -/
theorem expand_verbatim (unit : Nat) (h : Lexeme.ofText source = .ok ls)
    (noMacro : ∀ l ∈ ls, l.kind = .identifier → macros.isDefined l.text = false) :
    Macro.expand macros (verbatim unit (.ofString source)) =
      .ok (verbatim unit (.ofString source)) := by
  obtain ⟨-, rfl⟩ := Lexeme.lexemes_of_ofText h
  have stays : ∀ t ∈ verbatim unit (.ofString source), macros.applicable t = none := by
    intro t ht
    obtain ⟨r, hr, rfl⟩ := List.mem_map.1 ht
    refine Macro.applicable_eq_none fun identifier defined => ?_
    rw [noMacro r.1 (List.mem_map_of_mem hr) identifier] at defined
    cases defined
  have expanded := Macro.expand_append_of_none stays []
  rw [Macro.expand] at expanded
  simpa only [Except.map, List.append_nil] using expanded

/-! ## The run -/

/-- What has been put out is some tokens, where nothing was before. -/
theorem pieces_emitTokens (h : s.emitted = #[]) (tokens : List Token) :
    (tokens.foldl State.emitToken s).pieces = tokens.map fun t => (Emission.token t).piece := by
  have adds : _ = s.emitted.toList ++ _ := s.adds_emitTokens tokens
  rw [State.pieces, adds, h, List.nil_append, List.map_map]
  rfl

theorem atLineStart_append {l : Lexeme} (h : f.atLineStart = true → AtLineStart before) :
    (f.afterLexeme l c).atLineStart = true → AtLineStart (before ++ [l]) := by
  intro hstart
  unfold Frame.afterLexeme at hstart
  dsimp only at hstart
  split at hstart
  next newline => exact Lexeme.atLineStart_newline before newline
  next =>
    split at hstart
    next trivia => exact Lexeme.atLineStart_trivia (h hstart) trivia
    next => cases hstart

/-- **A text without directives waits up to its end**, where it is expanded as a whole. -/
theorem runs_of_noDirective (before : List Lexeme) {tokens : List Token} (groups : s.groups = [])
    (noFault : (f.cursor.lexemes .strict).2.2 = none)
    (noDirective : NoDirective before ((f.cursor.lexemes .strict).1.map (·.1)))
    (start : f.atLineStart = true → AtLineStart before)
    (expands : Macro.expand s.macros (f.waiting.reverse ++ verbatim f.unit f.cursor) = .ok tokens) :
    Runs env ⟨f, s⟩ (tokens.foldl State.emitToken s).leave := by
  have active : s.isActive = true := by rw [State.isActive, groups]
  have mode : s.mode = .strict := by rw [State.mode, active]; rfl
  generalize hc : f.cursor = c at *
  induction c using Lexeme.Cursor.lexemes.induct .strict generalizing f before with
  | case1 c fault next =>
    rw [Cursor.lexemes_of_fault next] at noFault
    cases noFault
  | case2 c next =>
    have none : verbatim f.unit c = [] := by rw [verbatim, Cursor.lexemes_of_atEnd next]; rfl
    rw [none, List.append_nil] at expands
    have flush : flush f s = .ok (tokens.foldl State.emitToken s) := by
      rw [Preprocess.flush, expands]
    have closed : (tokens.foldl State.emitToken s).outermostAbove? f.depth = Option.none := by
      rw [State.outermostAbove?, groups_flush flush, groups]
      rfl
    refine .finish ?_
    rw [Point.step, Preprocess.step, hc, mode, next]
    dsimp only
    rw [stepEnd, flush]
    dsimp only
    rw [closed]
  | case3 c l c' next _ _ _ _ ih =>
    rw [Cursor.lexemes_of_next next] at noFault noDirective
    have reads : AtLexeme f s l c' := by
      refine ⟨by rw [hc, mode, next], fun hash => ?_⟩
      exact Bool.false_ne_true ((noDirective.head (start hash.1)).symm.trans hash.2)
    have step : step env f s = (.next (f.afterToken l c'), s) := by
      rw [step_of_atLexeme reads, stepLexeme, if_pos active]
    have start' : (f.afterToken l c').atLineStart = true → AtLineStart (before ++ [l]) :=
      atLineStart_append (c := c') start
    refine .next step (ih _ start' rfl noFault noDirective.tail ?_)
    rw [verbatim_of_next next, ← hc] at expands
    rw [Frame.afterToken, List.reverse_cons, List.append_assoc]
    exact expands

namespace Session

variable {p : Session}

/-- The run of a source begins with the source as its only unit, and with nothing put out. -/
theorem entry_eq (p : Session) (source : String) : p.entry source =
    ⟨⟨0, p.rootUnit, p.basePath, 0, .ofString source, [], true⟩,
      { p.state.clear with units := #[⟨p.rootUnit, source⟩], chain := [p.rootUnit] }⟩ := by
  simp only [entry, begin, State.clear, addUnit_empty, List.length_nil]

theorem tryProcess_of_runs {t : State} (h : Runs p.settings (p.entry source) t) : p.tryProcess source =
    (.ok t.output, t.notices.toList, { p with state := t, lastError := none }) := by
  have run : p.runSource source = (none, t) := run_of_runs h
  rw [tryProcess, run]

/-- **A plain source comes out as it is**: the output is the source, the macros are what they were,
and the source map has one run, from the start of the output to its end, that moves along with the
source from its start; it has none if the source is empty. -/
theorem tryProcess_plain (plain : Plain p.macros source) :
    (p.tryProcess source).1 = .ok source ∧
    (p.tryProcess source).2.2.macros = p.macros ∧
    (p.tryProcess source).2.2.sourceMap = ⟨#[⟨p.rootUnit, source⟩],
      if source = "" then #[] else #[⟨0, source.utf8ByteSize, 0, 0, true⟩]⟩ := by
  obtain ⟨ls, lexemes, noDirective, noMacro⟩ := plain
  have output := output_verbatim 0 lexemes
  have expands := expand_verbatim 0 lexemes noMacro
  obtain ⟨noFault, rfl⟩ := Lexeme.lexemes_of_ofText lexemes
  let tokens := verbatim 0 (.ofString source)
  let s : State := { p.state.clear with units := #[⟨p.rootUnit, source⟩], chain := [p.rootUnit] }
  have runs : Runs p.settings (p.entry source) (tokens.foldl State.emitToken s).leave := by
    rw [entry_eq]
    exact runs_of_noDirective [] rfl noFault noDirective
      (fun _ => List.forall_mem_nil _) expands
  have eq := s.emitTokens_eq tokens
  have pieces : (tokens.foldl State.emitToken s).leave.pieces =
      tokens.map fun t => (Emission.token t).piece := pieces_emitTokens rfl tokens
  have macros : (tokens.foldl State.emitToken s).macros = s.macros := by rw [eq]
  have units : (tokens.foldl State.emitToken s).leave.units = #[⟨p.rootUnit, source⟩] := by
    rw [State.leave, eq]
  have map := Source.map_copy #[⟨p.rootUnit, source⟩] (copy_verbatim 0 (.ofString source))
  rw [tryProcess_of_runs runs]
  refine ⟨?_, macros, ?_⟩
  · rw [State.output, pieces, output]
  · rw [sourceMap, State.sourceMap, pieces, units, map, Source.Piece.size, output, Source.copied]
    simp only [String.utf8ByteSize_eq_zero_iff]

/-- A macro that is mentioned in a comment and a literal alone, a `#` that does not start its line, a
backslash, a character of two bytes, and both kinds of line ends. -/
theorem tryProcess_plain_apply :
    let p := { new with state := .initial (Table.empty.define ⟨"F", none, [⟨.number, "1"⟩]⟩) }
    let source := "a # \\ é\r\n/* F\n */ \"F\"\n"
    Plain p.macros source ∧ (p.tryProcess source).1 = .ok source ∧
    (p.tryProcess source).2.2.macros = p.macros ∧
    (p.tryProcess source).2.2.sourceMap = ⟨#[⟨"shader", source⟩], #[⟨0, 23, 0, 0, true⟩]⟩ := by
  intro p source
  have lexemes : Lexeme.ofText source = .ok [⟨.identifier, "a"⟩, ⟨.whitespace, " "⟩, ⟨.punct, "#"⟩,
      ⟨.whitespace, " "⟩, ⟨.punct, "\\"⟩, ⟨.whitespace, " "⟩, ⟨.punct, "é"⟩, ⟨.newline, "\r\n"⟩,
      ⟨.blockComment, "/* F\n */"⟩, ⟨.whitespace, " "⟩, ⟨.stringLiteral, "\"F\""⟩,
      ⟨.newline, "\n"⟩] := by cbv
  have plain : Plain p.macros source := ⟨_, lexemes, by decide, by decide⟩
  exact ⟨plain, tryProcess_plain plain⟩

end Session

end Preprocess

end ShaderPass
