import Mathlib
import ShaderPass.Proofs.Lexeme.Rescan
import ShaderPass.Proofs.Macro.Lexemes
import ShaderPass.Proofs.Preprocess.Invariant
import ShaderPass.Proofs.Preprocess.Written

/-!
# Proofs/Preprocess/Rescan — the output, read again

    put out   F(a)b  ──▸  a b            read again  ab
    put out   F(a // b⏎ c) ──▸ a // b c  read again  a

The lexemes of a run are written out one right after the other.  Each of them is whole
(`lasts_whole`): it was read strictly from a unit or from the body of a macro, or it is a blank or a
line feed.  So the output gives them back, each at its place, if and only if none of them runs on
into the text after it (`Session.rescans_iff`).  Nothing keeps them apart in general, and a line
comment that loses the end of its line hides what comes after it (`Session.not_rescans`).
-/

namespace ShaderPass

open Lexeme (Cursor IsWhole isSignificant chars places StandApart CommentsEndLines)

namespace Macro

/-- The lexemes that are read from the body of a macro are whole. -/
theorem isWhole_of_read {name body : String} {params : Option (List String)} {d : Definition}
    (h : Definition.read name params body = .ok d) : ∀ l ∈ d.body, l.IsWhole := by
  unfold Definition.read at h
  cases hread : Lexeme.ofText (Text.trim body) with
  | error fault =>
    rw [hread] at h
    cases h
  | ok ls =>
    rw [hread] at h
    cases h
    exact Lexeme.isWhole_of_ofText hread

end Macro

namespace Preprocess

open Macro (Token)

variable {env : Settings} {f : Frame} {s s' : State} {es : List Emission}

/-! ## The lexemes that are put out -/

/-- The lexeme that is put out, if it is one. -/
def Emission.lexeme? : Emission → Option Lexeme
  | .token t => some t.toLexeme
  | .lineEnd _ _ => some ⟨.newline, "\n"⟩
  | .passed _ _ => none

/-- The lexemes put out so far. -/
def State.lexemes (s : State) : List Lexeme := s.emitted.toList.filterMap Emission.lexeme?

/-- Whether no directive has been passed through so far. -/
def State.PassesNothing (s : State) : Prop := ∀ e ∈ s.emitted.toList, e.lexeme?.isSome = true

instance (s : State) : Decidable s.PassesNothing := List.decidableBAll _ _

theorem State.Adds.lexemes (h : s.Adds es s') :
    s'.lexemes = s.lexemes ++ es.filterMap Emission.lexeme? := by
  rw [State.lexemes, h, List.filterMap_append]
  rfl

/-- The text of what is put out is the text of the lexemes. -/
theorem toList_output (h : ∀ e ∈ es, e.lexeme?.isSome = true) :
    (Source.Piece.output (es.map Emission.piece)).toList =
      chars (es.filterMap Emission.lexeme?) := by
  induction es with
  | nil => rfl
  | cons e es ih =>
    obtain ⟨he, hes⟩ := List.forall_mem_cons.1 h
    obtain ⟨l, hl⟩ := Option.isSome_iff_exists.1 he
    have htext : e.piece.text = l.text := by
      cases e with
      | token t =>
        cases hl
        rfl
      | lineEnd =>
        cases hl
        rfl
      | passed => cases hl
    rw [List.filterMap_cons_some hl, Lexeme.chars_cons, ← ih hes, ← htext, ← String.toList_append]
    exact congrArg String.toList (Source.Piece.output_append [e.piece] (es.map Emission.piece))

/-! ## They are whole -/

/-- Whether the macros are made of whole lexemes, and only whole ones have been put out. -/
structure State.Whole (s : State) : Prop where
  macros : s.macros.Forall IsWhole
  lexemes : ∀ l ∈ s.lexemes, l.IsWhole

/-- Whether whole lexemes wait to be expanded. -/
def Frame.Whole (f : Frame) : Prop := ∀ t ∈ f.waiting, t.toLexeme.IsWhole

theorem isWhole_blank : IsWhole ⟨.whitespace, " "⟩ :=
  ⟨List.cons_ne_nil _ _, rfl, fun h => by cases h⟩

theorem isWhole_lineFeed : IsWhole ⟨.newline, "\n"⟩ :=
  ⟨List.cons_ne_nil _ _, rfl, fun h => by cases h⟩

theorem State.Whole.of_adds (h : s.Whole) (hmacros : s'.macros.Forall IsWhole)
    (hadds : s.Adds es s') (hes : ∀ e ∈ es, ∀ l ∈ e.lexeme?, l.IsWhole) : s'.Whole := by
  refine ⟨hmacros, ?_⟩
  rw [hadds.lexemes]
  refine List.forall_mem_append.2 ⟨h.lexemes, fun l hl => ?_⟩
  obtain ⟨e, he, hl⟩ := List.mem_filterMap.1 hl
  exact hes e he l hl

theorem State.Whole.emitLineEnds (h : s.Whole) (unit : Nat) (ends : List Nat) :
    (s.emitLineEnds unit ends).Whole := by
  refine h.of_adds ?_ (s.adds_emitLineEnds unit ends) fun e he l hl => ?_
  · rw [s.macros_emitLineEnds]
    exact h.macros
  · obtain ⟨o, -, rfl⟩ := List.mem_map.1 he
    cases hl
    exact isWhole_lineFeed

/-- What is flushed is whole if the macros and the waiting tokens are. -/
theorem State.Whole.flush {s₁ : State} (h : s.Whole) (hf : f.Whole)
    (hflush : Preprocess.flush f s = .ok s₁) : s₁.Whole := by
  obtain ⟨tokens, hexpand, hadds⟩ := adds_flush hflush
  refine h.of_adds ?_ hadds fun e he l hl => ?_
  · rw [macros_flush hflush]
    exact h.macros
  · obtain ⟨t, ht, rfl⟩ := List.mem_map.1 he
    cases hl
    refine Macro.forall_expands isWhole_blank h.macros (Macro.expands_of_expand hexpand) ?_ t ht
    exact fun u hu => hf u (List.mem_reverse.1 hu)

theorem persists_forall_isWhole : Persists (Macro.Table.Forall · IsWhole) := by
  refine ⟨fun d hd => absurd hd List.not_mem_nil, fun h hr => ?_⟩
  cases hr with
  | keeps => exact h
  | defines reads => exact h.define (Macro.isWhole_of_read reads)
  | undefines name => exact h.undefine name

/-- A directive puts out no lexeme. -/
theorem State.Whole.handle {origin : Macro.Origin} {line : String} (h : s.Whole)
    (hhandle : Preprocess.handle env f origin line s = .ok (.proceed s')) : s'.Whole := by
  have hmacros := persists_forall_isWhole.redefines h.macros (redefines_handle hhandle)
  rcases adds_handle hhandle with hadds | ⟨text, _, -, hadds⟩
  · exact h.of_adds hmacros hadds fun e he => absurd he List.not_mem_nil
  · refine h.of_adds hmacros hadds fun e he l hl => ?_
    rw [List.mem_singleton.1 he] at hl
    cases hl

/-- Text that is emitted is read strictly. -/
theorem AtLexeme.isWhole {l : Lexeme} {c : Cursor} (h : AtLexeme f s l c)
    (active : s.isActive = true) : l.IsWhole := by
  have hmode : s.mode = .strict := by rw [State.mode, if_pos active]
  have hnext := h.next
  rw [hmode] at hnext
  exact Lexeme.isWhole_of_next hnext

/-- **In the course of a run, only whole lexemes wait and are put out.** -/
theorem lasts_whole : Lasts env Frame.Whole State.Whole := by
  have nothing : ∀ (f : Frame) (c : Cursor), (f.afterLine c).Whole := fun f c t ht =>
    absurd ht List.not_mem_nil
  refine ⟨fun {f s o s'} hf hs h => ?_, fun hs _ _ _ => ⟨fun t ht => absurd ht List.not_mem_nil, ?_⟩,
    fun hs unit ends => hs.emitLineEnds unit ends⟩
  · cases step_cases h with
    | failed => exact ⟨hs, fun f' hf' => by cases hf'⟩
    | failedAfter flush => exact ⟨hs.flush hf flush, fun f' hf' => by cases hf'⟩
    | unterminated flush =>
      obtain ⟨hmacros, hlexemes⟩ := hs.flush hf flush
      exact ⟨⟨hmacros, hlexemes⟩, fun f' hf' => by cases hf'⟩
    | finish _ flush =>
      obtain ⟨hmacros, hlexemes⟩ := hs.flush hf flush
      exact ⟨⟨hmacros, hlexemes⟩, fun f' hf' => by cases hf'⟩
    | directive reads handle =>
      refine ⟨((hs.flush hf reads.flush).handle handle).emitLineEnds _ _, fun f' hf' => ?_⟩
      cases hf'
      exact nothing _ _
    | splice reads _ =>
      refine ⟨hs.flush hf reads.flush, fun f' hf' => ?_⟩
      cases hf'
      exact nothing _ _
    | token reads active =>
      refine ⟨hs, fun f' hf' => ?_⟩
      cases hf'
      exact List.forall_mem_cons.2 ⟨reads.isWhole active, hf⟩
    | skippedLineEnd reads =>
      refine ⟨hs.emitLineEnds _ [_], fun f' hf' => ?_⟩
      cases hf'
      exact hf
    | skipped reads =>
      refine ⟨hs, fun f' hf' => ?_⟩
      cases hf'
      exact hf
  · exact ⟨hs.macros, hs.lexemes⟩

/-! ## The output of a session -/

namespace Session

variable {p : Session} {source output : String}

/-- The lexemes that the run of a source puts out. -/
def lexemes (p : Session) (source : String) : List Lexeme :=
  (p.tryProcess source).2.2.state.lexemes

/-- Whether the run of a source passes no directive through. -/
def PassesNothing (p : Session) (source : String) : Prop :=
  (p.tryProcess source).2.2.state.PassesNothing

instance (p : Session) (source : String) : Decidable (p.PassesNothing source) :=
  inferInstanceAs (Decidable (State.PassesNothing _))

/-- Whether the output of a source, if there is one and nothing is passed through, is read again as
the significant lexemes that were put out, with nothing but trivia and line ends between them. -/
def Rescans (p : Session) (source : String) : Prop :=
  ∀ output, (p.tryProcess source).1 = .ok output → p.PassesNothing source →
    ∃ read, Lexeme.ofText output = .ok read ∧
      read.filter (·.isSignificant) = (p.lexemes source).filter (·.isSignificant)

/-- A source whose output is read again as something else. -/
theorem not_rescans_of_ne (output : String) (ls read : List Lexeme)
    (h : ((p.tryProcess source).1, p.lexemes source, decide (p.PassesNothing source)) =
      (.ok output, ls, true))
    (hread : Lexeme.ofText output = .ok read)
    (hne : read.filter (·.isSignificant) ≠ ls.filter (·.isSignificant)) : ¬p.Rescans source := by
  simp only [Prod.mk.injEq, decide_eq_true_eq] at h
  obtain ⟨haccepted, hls, hpassed⟩ := h
  intro hrescans
  obtain ⟨read', hread', hfilter⟩ := hrescans output haccepted hpassed
  obtain rfl : read = read' := Except.ok.inj (hread.symm.trans hread')
  exact hne (hls ▸ hfilter)

/-- An argument right before an identifier becomes one with it, and a line comment in an argument
over two lines hides what comes after it. -/
theorem not_rescans : Session.new.Reachable ∧ ¬Session.new.Rescans "#define F(x) x\nF(a)b" ∧
    ¬Session.new.Rescans "#define F(x) x\nF(a // b\n c)" := by
  refine ⟨.new, ?_, ?_⟩
  · exact not_rescans_of_ne "\nab"
      [⟨.newline, "\n"⟩, ⟨.identifier, "a"⟩, ⟨.identifier, "b"⟩]
      [⟨.newline, "\n"⟩, ⟨.identifier, "ab"⟩] (by cbv) (by cbv) (by decide)
  · exact not_rescans_of_ne "\na // b  c"
      [⟨.newline, "\n"⟩, ⟨.identifier, "a"⟩, ⟨.whitespace, " "⟩, ⟨.lineComment, "// b"⟩,
        ⟨.whitespace, " "⟩, ⟨.whitespace, " "⟩, ⟨.identifier, "c"⟩]
      [⟨.newline, "\n"⟩, ⟨.identifier, "a"⟩, ⟨.whitespace, " "⟩, ⟨.lineComment, "// b  c"⟩]
      (by cbv) (by cbv) (by decide)

/-- The lexemes that a session puts out are whole, whatever it has been used for. -/
theorem isWhole_lexemes (hp : p.Reachable) : ∀ l ∈ p.lexemes source, l.IsWhole := by
  have hmacros : p.macros.Forall IsWhole := macros_of_reachable persists_forall_isWhole hp
  refine (lasts_whole.run (f := (begin p.state.clear p.rootUnit source p.basePath).1) ?_ ?_).lexemes
  · exact fun t ht => absurd ht List.not_mem_nil
  · exact ⟨hmacros, fun l hl => absurd hl List.not_mem_nil⟩

/-- The output of a source that is accepted is the text of the lexemes put out. -/
theorem toList_of_tryProcess (h : (p.tryProcess source).1 = .ok output)
    (hpassed : p.PassesNothing source) : output.toList = chars (p.lexemes source) := by
  have houtput : output = (p.tryProcess source).2.2.state.output := by
    rw [tryProcess] at h ⊢
    simp only at h ⊢
    split at h
    next => cases h
    next => exact (Except.ok.inj h).symm
  rw [houtput]
  exact toList_output hpassed

/-- **The output of a source that is accepted gives the significant lexemes put out back, each at its
place and nothing else, if and only if none of them runs on into the text after it**, where nothing
is passed through and nothing but blanks comes between a line comment and the end of its line. -/
theorem rescans_iff (hp : p.Reachable) (h : (p.tryProcess source).1 = .ok output)
    (hpassed : p.PassesNothing source) (hcomments : CommentsEndLines (p.lexemes source)) :
    ((Cursor.ofString output).Yields (places 0 (p.lexemes source)) ↔
        StandApart (p.lexemes source)) ∧
      (StandApart (p.lexemes source) → p.Rescans source) := by
  have yields := Lexeme.yields_places_iff (toList_of_tryProcess h hpassed) (isWhole_lexemes hp)
    hcomments
  refine ⟨yields, fun hapart output' h' _ => ?_⟩
  obtain rfl : output = output' := Except.ok.inj (h.symm.trans h')
  obtain ⟨read, hread, hfilter⟩ := Lexeme.ofText_of_yields (yields.2 hapart)
  exact ⟨read, hread, hfilter.trans (Lexeme.map_fst_places 0 _)⟩

/-- An argument right before a punctuation character, and a line comment after all of it. -/
theorem rescans_iff_apply :
    (Session.new.tryProcess "#define F(x) x\nF(a)+b // c\n").1 = .ok "\na+b // c\n" ∧
      ((Cursor.ofString "\na+b // c\n").Yields
          [(⟨.identifier, "a"⟩, 1), (⟨.punct, "+"⟩, 2), (⟨.identifier, "b"⟩, 3)]) ∧
      Session.new.Rescans "#define F(x) x\nF(a)+b // c\n" := by
  have run : ((Session.new.tryProcess "#define F(x) x\nF(a)+b // c\n").1,
      Session.new.lexemes "#define F(x) x\nF(a)+b // c\n",
      decide (Session.new.PassesNothing "#define F(x) x\nF(a)+b // c\n")) =
      (.ok "\na+b // c\n", [⟨.newline, "\n"⟩, ⟨.identifier, "a"⟩, ⟨.punct, "+"⟩,
        ⟨.identifier, "b"⟩, ⟨.whitespace, " "⟩, ⟨.lineComment, "// c"⟩, ⟨.newline, "\n"⟩],
        true) := by cbv
  simp only [Prod.mk.injEq, decide_eq_true_eq] at run
  obtain ⟨accepted, lexemes, passed⟩ := run
  obtain ⟨yields, rescans⟩ := rescans_iff .new accepted passed (by rw [lexemes]; decide)
  have apart : StandApart (Session.new.lexemes "#define F(x) x\nF(a)+b // c\n") := by
    rw [lexemes]
    decide
  have hyields := yields.2 apart
  rw [lexemes] at hyields
  exact ⟨accepted, hyields, rescans apart⟩

end Session

end Preprocess

end ShaderPass
