import Mathlib
import ShaderPass.Proofs.Preprocess.Groups

/-!
# Proofs/Preprocess/Skipped — text that is skipped has no effect

    cursor                     f'.cursor
      │  ⋯ "  ⏎  ⋯  '  ⋯  ⏎  ⋯    │         skipped: two line ends are crossed
      ▼                           ▼
    output ++ "\n\n"                        and two line feeds put out for them

A step over text that is not emitted leaves all of the state as it is but the open groups, and puts
out one line feed for each line end that it crosses (`Skips.goesOn`).  It can only fail over a block
comment that is never closed, or over a line that is about an open group and cannot be obeyed
(`Misread`): all other lines are known by a word that does not count in skipped text, whatever else
they say.
-/

namespace ShaderPass

namespace Preprocess

open Lexeme (Cursor)
open Macro (Origin)
open Directive (parse? wordOf openingWords groupWords innerWords)
open Source (Piece)

variable {env : Settings} {f f' : Frame} {s s' : State} {o : Outcome} {origin : Origin}
  {line : String} {d : Directive} {rest : List Char}

/-! ## Line feeds for line ends -/

theorem output_lineEnds (unit : Nat) (ends : List Nat) :
    Piece.output ((ends.map (Emission.lineEnd unit)).map Emission.piece) =
      String.ofList (List.replicate ends.length '\n') := by
  induction ends with
  | nil => rfl
  | cons o os ih =>
    rw [List.map_cons, List.map_cons, ← List.singleton_append, Piece.output_append, ih,
      Piece.output_singleton, List.length_cons, List.replicate_succ, String.ofList_cons]
    rfl

theorem at?_lineEnds {unit j o : Nat} {ends : List Nat} (h : ends[j]? = some o) :
    Piece.at? ((ends.map (Emission.lineEnd unit)).map Emission.piece) j =
      some ((Emission.lineEnd unit o).piece, 0) := by
  induction ends generalizing j with
  | nil => cases h
  | cons o' os ih =>
    have length : ∀ o, (Emission.lineEnd unit o).piece.length = 1 := fun _ => rfl
    rw [List.map_cons, List.map_cons, Piece.at?, length]
    cases j with
    | zero =>
      cases h
      rfl
    | succ j => exact ih h

/-- One state is another but for its groups and for a line feed put out for each of some line ends of
a unit, where the source map finds them. -/
structure State.OnlyLineEnds (s : State) (unit : Nat) (ends : List Nat) (s' : State) : Prop where
  same : s' = { s with groups := s'.groups, emitted := s'.emitted }
  output : s'.output = s.output ++ String.ofList (List.replicate ends.length '\n')
  locate : ∀ j o, ends[j]? = some o →
    s'.sourceMap.locate (s.output.utf8ByteSize + j) = some (unit, o)

/-- Putting out line ends, with other groups, does nothing else. -/
theorem State.onlyLineEnds (s : State) (gs : List Group) (unit : Nat) (ends : List Nat) :
    s.OnlyLineEnds unit ends ({ s with groups := gs }.emitLineEnds unit ends) := by
  have adds : s.Adds _ ({ s with groups := gs }.emitLineEnds unit ends) :=
    State.adds_emitLineEnds { s with groups := gs } unit ends
  refine ⟨?_, ?_, fun j o ho => ?_⟩
  · rw [State.emitLineEnds_eq]
  · rw [State.output, State.pieces, adds, List.map_append, Piece.output_append, output_lineEnds]
    rfl
  · have hat := adds.at? (i := s.size + j) (Nat.le_add_right _ _)
    rw [Nat.add_sub_cancel_left, at?_lineEnds ho] at hat
    exact Source.Map.locate_map _ hat (Piece.lt_size_of_at? hat)

/-! ## Lines in skipped text -/

/-- What can be wrong with a line about an open group: it writes no directive, there is no group of
its unit that is open and can go on, or its condition cannot be evaluated. -/
inductive Misread (f : Frame) (s : State) (origin : Origin) (line : String) : Cause → Prop
  | malformed (parses : parse? line = none) :
      Misread f s origin line (.malformedDirective (wordOf line) line)
  | withoutGroup {word : GroupWord} (spelling : word.spelling = "#" ++ wordOf line)
      (closed : s.groupAbove? f.depth = none) : Misread f s origin line (.withoutGroup word)
  | afterElse {word : GroupWord} {g : Group} (spelling : word.spelling = "#" ++ wordOf line)
      (above : s.groupAbove? f.depth = some g) (seen : g.seenElse = true) :
      Misread f s origin line (.afterElse word)
  | condition {text : String} {rest : List Char} {cause : ConditionCause}
      (parses : parse? line = some (.elseIf text, rest))
      (fails : conditionHolds s.macros origin text = .error cause) :
      Misread f s origin line (.condition cause)

/-- What a line leads to changes the open groups at most, or is a failure of a line about them. -/
def GroupsOnly (f : Frame) (s : State) (origin : Origin) (line : String)
    (r : Except Cause Effect) : Prop :=
  (∃ gs, r = .ok (.proceed { s with groups := gs })) ∨
    ∃ cause, r = .error cause ∧ wordOf line ∈ innerWords ∧ Misread f s origin line cause

theorem groupsOnly_obey (parses : parse? line = some (d, rest)) (inner : wordOf line ∈ innerWords) :
    GroupsOnly f s origin line (obey env f origin s d) := by
  rcases Directive.inner_of_mem_spellings (Directive.wordOf_mem_spellings parses) inner with
    ⟨text, rfl, hword⟩ | ⟨rfl, hword⟩ | ⟨rfl, hword⟩
  · have spelling : GroupWord.elseIf.spelling = "#" ++ wordOf line := by rw [hword]; rfl
    simp only [obey]
    split
    next closed => exact .inr ⟨_, rfl, inner, .withoutGroup spelling closed⟩
    next g above =>
      split
      next seen => exact .inr ⟨_, rfl, inner, .afterElse spelling above seen⟩
      next =>
        split
        next =>
          split
          next fails => exact .inr ⟨_, rfl, inner, .condition parses fails⟩
          next => exact .inl ⟨_, rfl⟩
        next => exact .inl ⟨_, rfl⟩
  · have spelling : GroupWord.otherwise.spelling = "#" ++ wordOf line := by rw [hword]; rfl
    simp only [obey]
    split
    next closed => exact .inr ⟨_, rfl, inner, .withoutGroup spelling closed⟩
    next g above =>
      split
      next seen => exact .inr ⟨_, rfl, inner, .afterElse spelling above seen⟩
      next => exact .inl ⟨_, rfl⟩
  · have spelling : GroupWord.endGroup.spelling = "#" ++ wordOf line := by rw [hword]; rfl
    simp only [obey]
    split
    next closed => exact .inr ⟨_, rfl, inner, .withoutGroup spelling closed⟩
    next => exact .inl ⟨_, rfl⟩

/-- **In skipped text a line does nothing to any other part of the state**, whatever it says. -/
theorem groupsOnly_of_handle {r : Except Cause Effect} (inactive : s.isActive = false)
    (h : handle env f origin line s = r) : GroupsOnly f s origin line r := by
  subst h
  by_cases hgroup : wordOf line ∈ groupWords
  · by_cases hopening : wordOf line ∈ openingWords
    · refine .inl ⟨.opened false false (s.position origin) :: s.groups, ?_⟩
      simp only [handle, inactive, hgroup, hopening, not_true_eq_false, and_false, if_false,
        and_self, if_true, State.openGroup]
    · have inner := Directive.mem_innerWords.2 ⟨hgroup, hopening⟩
      rw [handle_of_innerWord inner]
      split
      next parses =>
        have known : wordOf line ∈ Directive.words := List.mem_append_right _ hgroup
        rw [Cause.ofBadLine, if_pos known]
        exact .inr ⟨_, rfl, inner, .malformed parses⟩
      next d rest parses => exact groupsOnly_obey parses inner
  · refine .inl ⟨s.groups, ?_⟩
    simp only [handle, inactive, hgroup, not_false_eq_true, and_self, if_true]

/-! ## Steps over skipped text -/

/-- What a step over skipped text leads to. -/
inductive Skips (f : Frame) (s : State) : Outcome → State → Prop
  | goesOn {f' : Frame} {s' : State} {ends : List Nat} (crosses : f.cursor.Crosses ends f'.cursor)
      (only : s.OnlyLineEnds f.unit ends s') : Skips f s (.next f') s'
  | comment (position : Source.Position) :
      Skips f s (.failed ⟨.lexeme .unterminatedBlockComment, position⟩) s
  | line {line : Directive.Line} {after : Cursor} {cause : Cause}
      (reads : AtDirective f s s line after) (inner : wordOf line.text ∈ innerWords)
      (misread : Misread f s f.origin line.text cause) :
      Skips f s (.failed ⟨cause, s.position f.origin⟩) s

/-- A step that goes on over skipped text only puts out line ends. -/
theorem skips_of_next (inactive : s.isActive = false) (waiting : f.waiting = [])
    (h : step env f s = (.next f', s')) : Skips f s (.next f') s' := by
  have flush := flush_of_waiting_nil (s := s) waiting
  cases step_cases h with
  | @directive s₁ s₂ line after reads handle =>
    obtain rfl : s = s₁ := Except.ok.inj (flush.symm.trans reads.flush)
    rcases groupsOnly_of_handle inactive handle with ⟨gs, hok⟩ | ⟨cause, herror, -, -⟩
    · cases hok
      exact .goesOn reads.crosses (s.onlyLineEnds gs f.unit line.lineEnds)
    · cases herror
  | token _ active => exact absurd (active.symm.trans inactive) (by decide)
  | skippedLineEnd reads _ newline =>
    have crosses := reads.crosses
    rw [if_pos newline] at crosses
    exact .goesOn crosses (s.onlyLineEnds s.groups f.unit [f.origin.offset])
  | skipped reads _ noNewline =>
    have crosses := reads.crosses
    rw [if_neg noNewline] at crosses
    exact .goesOn crosses (s.onlyLineEnds s.groups f.unit [])

/-- A step that fails over skipped text fails as listed. -/
theorem skips_of_failed {e : Error} (inactive : s.isActive = false) (waiting : f.waiting = [])
    (more : f.cursor.rest ≠ []) (h : step env f s = (.failed e, s')) :
    Skips f s (.failed e) s' := by
  have flush := flush_of_waiting_nil (s := s) waiting
  cases stepFails_of_step h with
  | lexeme next =>
    rw [State.mode, inactive] at next
    rw [Cursor.fault_of_next_lenient next]
    exact .comment _
  | flush fails => cases flush.symm.trans fails
  | line _ flushes read =>
    cases flush.symm.trans flushes
    rw [Cursor.fault_of_readLine read]
    exact .comment _
  | handle reads handle =>
    cases flush.symm.trans reads.flush
    rcases groupsOnly_of_handle inactive handle with ⟨gs, hok⟩ | ⟨cause, herror, inner, misread⟩
    · cases hok
    · cases herror
      exact .line reads inner misread
  | unterminated atEnd => exact absurd (Cursor.next_eq_none atEnd) more

/-- **A step over skipped text only puts out line ends**, or fails as listed. -/
theorem skips_of_step (inactive : s.isActive = false) (waiting : f.waiting = [])
    (more : f.cursor.rest ≠ []) (h : step env f s = (o, s')) : Skips f s o s' := by
  cases o with
  | failed e => exact skips_of_failed inactive waiting more h
  | next f' => exact skips_of_next inactive waiting h
  | finished =>
    cases step_cases h with
    | finish atEnd => exact absurd (Cursor.next_eq_none atEnd) more
  | splice i ends f' =>
    cases step_cases h with
    | splice reads handle =>
      cases (flush_of_waiting_nil waiting).symm.trans reads.flush
      rcases groupsOnly_of_handle inactive handle with ⟨gs, hok⟩ | ⟨cause, herror, -, -⟩
      · cases hok
      · cases herror

/-! ## The run of a source -/

/-- **Skipped text has no effect.**  Wherever the run of a source is in text that is not emitted, a
step that goes on changes nothing but the open groups and what has been put out, and what it puts out
is one line feed for each line end of the unit that it crosses, where the source map finds it.  A step
can only fail over a block comment that is never closed, or over a line that goes on with an open
group, or ends it, and is malformed, out of place or without a value. -/
theorem Session.skipped_without_effect (p : Session) (source : String) :
    ((p.tryProcess source).2.2.library = p.library ∧
      (p.tryProcess source).2.2.predefined = p.predefined) ∧
    ∀ x, Reached p.settings (p.entry source) x → x.state.isActive = false →
      x.frame.cursor.rest ≠ [] → ∀ o s', x.step p.settings = (o, s') →
        (∃ f' text before ends, o = .next f' ∧ x.state.OnlyLineEnds x.frame.unit ends s' ∧
          x.state.units[x.frame.unit]? = some ⟨x.frame.name, text⟩ ∧
          (Cursor.ofString text).Crosses before x.frame.cursor ∧
          x.frame.cursor.Crosses ends f'.cursor) ∨
        ∃ e, o = .failed e ∧ s' = x.state ∧
          (e.cause = .lexeme .unterminatedBlockComment ∨
            ∃ line after, AtDirective x.frame x.state x.state line after ∧
              wordOf line.text ∈ innerWords ∧
              Misread x.frame x.state x.frame.origin line.text e.cause) := by
  refine ⟨⟨rfl, rfl⟩, fun x reached inactive more o s' step => ?_⟩
  obtain ⟨text, placed, before, crossed⟩ :=
    placed_of_reached reached (placed_begin p.state.clear p.rootUnit source p.basePath) rfl
  have waiting : x.frame.waiting = [] := placed.waiting_eq_nil inactive
  cases skips_of_step inactive waiting more step with
  | goesOn crosses only =>
    exact .inl ⟨_, text, before, _, rfl, only, placed.unit, crossed, crosses⟩
  | comment => exact .inr ⟨_, rfl, rfl, .inl rfl⟩
  | line reads inner misread => exact .inr ⟨_, rfl, rfl, .inr ⟨_, _, reads, inner, misread⟩⟩

/-- A definition with a stray quote, in a group that is not emitted. -/
theorem Session.skipped_without_effect_apply :
    ∃ x, Reached Session.new.settings (Session.new.entry "#ifdef a\n#define b '\n") x ∧
      x.state.isActive = false ∧ ∃ f' s' ends, x.step Session.new.settings = (.next f', s') ∧
        x.state.OnlyLineEnds x.frame.unit ends s' := by
  let env := Session.new.settings
  let root := Session.new.entry "#ifdef a\n#define b '\n"
  let x : Point := ⟨root.frame.afterLine ⟨"#define b '\n".toList, ⟨9, 2, 1⟩⟩, ⟨.empty,
    #[⟨"shader", "#ifdef a\n#define b '\n"⟩], #[.lineEnd 0 8],
    [⟨true, false, false, false, ⟨"shader", 1, 1⟩⟩], ["shader"], [], #[]⟩⟩
  have stepIf : root.step env = (.next x.frame, x.state) := by cbv
  have stepDefine : x.step env = (.next (x.frame.afterLine ⟨[], ⟨21, 3, 1⟩⟩),
      x.state.emitLineEnds 0 [20]) := by cbv
  have reached : Reached env root x := reached_iff.2 (.single (.next stepIf))
  have inactive : x.state.isActive = false := rfl
  refine ⟨x, reached, inactive, ?_⟩
  rcases (Session.skipped_without_effect Session.new "#ifdef a\n#define b '\n").2 x reached
    inactive (by decide) _ _ stepDefine with ⟨_, _, _, ends, -, only, -⟩ | ⟨_, failed, -⟩
  · exact ⟨_, _, ends, stepDefine, only⟩
  · cases failed

end Preprocess

end ShaderPass
