import ShaderPass.Proofs.Directive.FreeText
import ShaderPass.Proofs.Macro.Lines
import ShaderPass.Proofs.Preprocess.Invariant
import ShaderPass.Proofs.Preprocess.Reach

/-!
# Proofs/Preprocess/Lines — the lines of an output are those of its source

    source   #define A \⏎ b ⏎ A ⏎        output   ⏎ ⏎ b ⏎
             └── line 1 ──┘└2┘└3┘                 1 2 └3┘

A directive line gives its line ends back, and so does skipped text; text that is emitted has its own.
Line feeds that are no line ends are given back only where text is emitted: those within a comment or
a literal of a directive line or of skipped text are lost, and so are those in the arguments of a
macro (`Point.KeepsLines`).  A source in which no other line is broken has the lines of its output
(`lines_kept`), and one in which a skipped comment goes over two lines does not
(`line_lost`).
-/

namespace ShaderPass

open Text (lineFeeds lineAt)

namespace Preprocess

open Lexeme (Cursor OneLine)
open Macro (Table Token Takes)
open Relation (ReflTransGen)
open Source (Piece)

variable {env : Settings} {f' : Frame} {s s₁ s' t : State} {x y b : Point} {text source : String}

/-! ## Points that keep their lines -/

/-- Whether the step at a point expands the tokens that wait there. -/
def Point.Flushes (x : Point) : Prop :=
  x.frame.cursor.next x.state.mode = .ok none ∨
    ∃ s line after, AtDirective x.frame x.state s line after

/-- Whether no line feed but those of line ends is lost at a point: none in a lexeme of a directive
line, none in one that is skipped, and none in what an argument list takes. -/
structure Point.KeepsLines (x : Point) : Prop where
  directive : ∀ {s line after l}, AtDirective x.frame x.state s line after →
    x.frame.cursor.Meets l after → l.kind ≠ .newline → l.OneLine
  skipped : ∀ {l c}, AtLexeme x.frame x.state l c → x.state.isActive = false →
    l.kind ≠ .newline → l.OneLine
  arguments : x.Flushes → ∀ u, Takes x.state.macros x.frame.waiting.reverse u → u.toLexeme.OneLine

/-- **A point keeps its lines if no lexeme of the source but the line ends holds a line feed**, and
no argument list takes a line end. -/
theorem keepsLines_of_lexemes {ls : List (Lexeme × Location)} {before : List Nat} {stop : Cursor}
    (crossed : (Cursor.ofString source).Crosses before x.frame.cursor)
    (lexemes : (Cursor.ofString source).lexemes .lenient = (ls, stop, none))
    (oneLine : ∀ l ∈ ls, l.1.kind ≠ .newline → l.1.OneLine)
    (arguments : ∀ u, Takes x.state.macros x.frame.waiting.reverse u → u.toLexeme.OneLine) :
    x.KeepsLines := by
  have met : ∀ {l after}, x.frame.cursor.Meets l after → l.kind ≠ .newline → l.OneLine := by
    intro l after meets noNewline
    obtain ⟨loc, hmem⟩ := (crossed.meets meets).mem_lexemes lexemes
    exact oneLine _ hmem noNewline
  refine ⟨fun _ => met, fun {l c} reads _ => ?_, fun _ => arguments⟩
  have meets : x.frame.cursor.Meets l c :=
    ⟨[], _, _, [], .refl _, Cursor.reads_of_next reads.next, .refl _⟩
  exact met meets

/-- What is read up to a point of an activation. -/
theorem crosses_of_reach (h : ReflTransGen (Advances env) x y) :
    ∃ ends, x.frame.cursor.Crosses ends y.frame.cursor := by
  induction h with
  | refl => exact ⟨[], .refl _⟩
  | tail _ advances ih =>
    obtain ⟨before, crosses⟩ := ih
    cases advances with
    | next step =>
      obtain ⟨ends, crosses'⟩ := crosses_of_next step
      exact ⟨_, crosses.trans crosses'⟩
    | splice step => exact ⟨_, crosses.trans (crosses_of_splice step)⟩

/-! ## Points in step with a text -/

/-- Whether what has been put out at a point, and what waits there, is in step with a text up to the
line of the cursor. -/
structure Point.InStep (text : String) (x : Point) : Prop where
  placed : x.frame.Placed x.state text
  pieces : Piece.InStep x.frame.unit text 1
    (x.state.pieces ++ x.frame.waiting.reverse.map Token.piece) x.frame.cursor.location.line
  names : ∀ t ∈ x.frame.waiting, t.kind = .identifier → t.toLexeme.OneLine
  macros : x.state.macros.Forall OneLine

theorem State.Adds.pieces {es : List Emission} (h : s.Adds es s') :
    s'.pieces = s.pieces ++ es.map Emission.piece := by
  rw [State.pieces, h, List.map_append]
  rfl

/-- Where nothing waits, what has been put out is in step. -/
theorem Point.InStep.of_waiting_nil (h : x.InStep text) (waiting : x.frame.waiting = []) :
    Piece.InStep x.frame.unit text 1 x.state.pieces x.frame.cursor.location.line := by
  have pieces := h.pieces
  rwa [waiting, List.reverse_nil, List.map_nil, List.append_nil] at pieces

theorem inStep_flush (h : x.InStep text) (flush : flush x.frame x.state = .ok s₁)
    (arguments : ∀ u, Takes x.state.macros x.frame.waiting.reverse u → u.toLexeme.OneLine) :
    Piece.InStep x.frame.unit text 1 s₁.pieces x.frame.cursor.location.line := by
  obtain ⟨tokens, expand, adds⟩ := adds_flush flush
  obtain ⟨mid, before, waiting⟩ := Piece.inStep_append.1 h.pieces
  have expanded := Macro.inStep_expands h.macros (Macro.expands_of_expand expand) arguments
    (fun t ht => h.names t (List.mem_reverse.1 ht)) waiting
  rw [adds.pieces, List.map_map]
  exact before.append expanded

/-- A line defines no macro with a line feed in its body. -/
theorem forall_handle {f : Frame} {origin : Macro.Origin} {line : String}
    (hs : s.macros.Forall OneLine) (h : handle env f origin line s = .ok (.proceed s')) :
    s'.macros.Forall OneLine := by
  cases handles_of_handle h with
  | skipped | opensSkipped => exact hs
  | obeys _ parses obeys =>
    cases obeys with
    | define reads =>
      rw [State.macros_define]
      have body := Directive.oneLine_of_define parses
      exact hs.define (Macro.oneLine_of_read (read_of_readDefinition reads) body)
    | undefine name => exact hs.undefine name
    | openGroup | elseIf | otherwise | endGroup | notSpliced | once | passThrough | nothing =>
      exact hs

/-- What a line itself puts out is on the line. -/
theorem inStep_handle {f : Frame} {line : String} {start : Nat}
    (hs : Piece.InStep f.unit text start s.pieces f.cursor.location.line) (hf : f.cursor.In text)
    (h : handle env f f.origin line s = .ok (.proceed s')) :
    Piece.InStep f.unit text start s'.pieces f.cursor.location.line := by
  rcases adds_handle h with none | ⟨passed, rest, parses, adds⟩
  · rwa [none.pieces, List.map_nil, List.append_nil]
  · have oneLine := (Directive.isLine_of_passThrough parses).oneLine
    have follows : (Emission.passed passed f.origin).piece.Follows f.unit text
        f.cursor.location.line := Piece.follows_of_oneLine rfl hf.lineAt rfl oneLine
    have feeds : lineFeeds passed = 0 := Text.lineFeeds_eq_zero.2 oneLine
    have inStep := hs.append follows.inStep
    rw [show (Emission.passed passed f.origin).piece.text = passed from rfl, feeds,
      Nat.add_zero] at inStep
    rw [adds.pieces]
    exact inStep

/-! ## Steps -/

/-- A directive line gives back its line ends. -/
theorem inStep_directive {line : Directive.Line} {after : Cursor} (h : x.InStep text)
    (keeps : x.KeepsLines) (reads : AtDirective x.frame x.state s₁ line after)
    (handle : handle env x.frame x.frame.origin line.text s₁ = .ok (.proceed s')) :
    Piece.InStep x.frame.unit text 1 (s'.emitLineEnds x.frame.unit line.lineEnds).pieces
      after.location.line := by
  have flushed := inStep_flush h reads.flush (keeps.arguments (.inr ⟨_, _, _, reads⟩))
  have handled := inStep_handle flushed h.placed.cursor handle
  have ends := Cursor.inStep_crosses reads.crosses h.placed.cursor x.frame.unit
    fun l => keeps.directive reads
  rw [(s'.adds_emitLineEnds x.frame.unit line.lineEnds).pieces, List.map_map]
  exact handled.append ends

/-- A lexeme that waits is on the line that it is read on. -/
theorem inStep_token {l : Lexeme} {c : Cursor} (h : x.InStep text)
    (read : x.frame.cursor.Reads l c) : Piece.InStep x.frame.unit text 1
      (x.state.pieces ++ (x.frame.token l :: x.frame.waiting).reverse.map Token.piece)
      c.location.line := by
  have follows := Cursor.follows_of_reads h.placed.cursor read x.frame.unit
  have token := h.pieces.append follows.inStep
  rw [List.reverse_cons, List.map_append, ← List.append_assoc, read.line]
  exact token

/-- A line end that is skipped is given back. -/
theorem inStep_skippedLineEnd {l : Lexeme} {c : Cursor} (h : x.InStep text)
    (read : x.frame.cursor.Reads l c) (newline : l.kind = .newline) (waiting : x.frame.waiting = []) :
    Piece.InStep x.frame.unit text 1
      (x.state.emitLineEnd x.frame.unit x.frame.origin.offset).pieces c.location.line := by
  obtain ⟨follows, line⟩ := read.follows_lineEnd newline h.placed.cursor x.frame.unit
  have adds : x.state.Adds _ (x.state.emitLineEnd x.frame.unit x.frame.origin.offset) :=
    x.state.adds_emit _
  rw [adds.pieces, line]
  exact (h.of_waiting_nil waiting).append follows.inStep

/-- **A step that goes on stays in step.** -/
theorem inStep_next (h : x.InStep text) (keeps : x.KeepsLines)
    (step : x.step env = (.next f', s')) : Point.InStep text ⟨f', s'⟩ := by
  have placed := (placed_next h.placed step).1
  cases step_cases step with
  | directive reads handle =>
    refine ⟨placed, ?_, fun t ht => absurd ht List.not_mem_nil, ?_⟩
    · have line := inStep_directive h keeps reads handle
      rwa [← List.append_nil (State.pieces _)] at line
    · rw [State.macros_emitLineEnds]
      exact forall_handle (macros_flush reads.flush ▸ h.macros) handle
  | token reads active =>
    have read := Cursor.reads_of_next reads.next
    exact ⟨placed, inStep_token h read,
      List.forall_mem_cons.2 ⟨read.oneLine_of_identifier, h.names⟩, h.macros⟩
  | skippedLineEnd reads inactive newline =>
    have waiting : x.frame.waiting = [] := h.placed.waiting_eq_nil inactive
    have lineEnd := inStep_skippedLineEnd h (Cursor.reads_of_next reads.next) newline waiting
    refine ⟨placed, ?_, h.names, h.macros⟩
    show Piece.InStep _ _ _ (_ ++ x.frame.waiting.reverse.map Token.piece) _
    rw [waiting, List.reverse_nil, List.map_nil, List.append_nil]
    exact lineEnd
  | @skipped l c reads inactive noNewline =>
    have line : c.location.line = x.frame.cursor.location.line := by
      rw [(Cursor.reads_of_next reads.next).line,
        Text.lineFeeds_eq_zero.2 (keeps.skipped reads inactive noNewline), Nat.add_zero]
    exact ⟨placed, line ▸ h.pieces, h.names, h.macros⟩

/-- The last step of a unit ends on its last line. -/
theorem inStep_finished (h : x.InStep text) (keeps : x.KeepsLines)
    (step : x.step env = (.finished, t)) :
    Piece.InStep x.frame.unit text 1 t.pieces (1 + lineFeeds text) := by
  cases step_cases step with
  | @finish s₁ atEnd flush =>
    have pieces : s₁.leave.pieces = s₁.pieces := rfl
    rw [← h.placed.cursor.line_of_rest_nil (Cursor.next_eq_none atEnd), pieces]
    exact inStep_flush h flush (keeps.arguments (.inl atEnd))

/-! ## Runs -/

/-- **A run that splices nothing in, and keeps its lines at every point, is in step with its text.** -/
theorem inStep_of_runs (h : Runs env x t) (hx : x.InStep text)
    (keeps : ∀ y, ReflTransGen (Advances env) x y → y.KeepsLines) (alone : ∀ b, ¬Splices env x b) :
    Piece.InStep x.frame.unit text 1 t.pieces (1 + lineFeeds text) := by
  induction h with
  | finish step => exact inStep_finished hx (keeps _ .refl) step
  | next step _ ih =>
    have unit := (step_next step).1.unit
    have advances := Advances.next step
    have rest := ih (inStep_next hx (keeps _ .refl) step) (fun y hy => keeps y (.head advances hy))
      fun b hb => by
        obtain ⟨reach, splice⟩ := hb
        exact alone _ ⟨.head advances reach, splice⟩
    rwa [← unit]
  | splice step => exact absurd (Splices.intro .refl step) (alone _)

namespace Session

variable {p : Session} {output : String}

/-- The beginning of a source is in step with it. -/
theorem inStep_entry (macros : p.macros.Forall OneLine) (source : String) :
    (p.entry source).InStep source :=
  ⟨placed_begin p.state.clear p.rootUnit source p.basePath, rfl,
    fun _ ht => absurd ht List.not_mem_nil, macros⟩

/-- **The lines of the output are those of the source**, if it splices nothing in, no macro that it
begins with holds a line feed, and no line feed but those of line ends is lost at a point of its run:
there are as many, and each byte of the output comes from the line of the source that has the number
of its own. -/
theorem lines_kept (accepted : (p.tryProcess source).1 = .ok output)
    (macros : p.macros.Forall OneLine) (alone : ∀ b, ¬Splices p.settings (p.entry source) b)
    (keeps : ∀ x, ReflTransGen (Advances p.settings) (p.entry source) x → x.KeepsLines) :
    lineFeeds output = lineFeeds source ∧
    ∀ i < output.utf8ByteSize, ∃ position,
      (p.tryProcess source).2.2.sourceMap.position? i = some position ∧
      position.unit = p.rootUnit ∧ position.line = lineAt output i := by
  obtain ⟨t, runs, -, rfl, hmap⟩ := completes_of_tryProcess accepted
  have inStep := inStep_of_runs runs (inStep_entry macros source) keeps alone
  have feeds : 1 + lineFeeds t.output = 1 + lineFeeds source := inStep.lineFeeds
  refine ⟨by omega, fun i hi => ?_⟩
  obtain ⟨piece, k, hat, -, -⟩ := Piece.exists_at? hi
  obtain ⟨unit, line⟩ := inStep.at? hat
  have placed := placed_begin p.state.clear p.rootUnit source p.basePath
  have found : t.units[piece.unit]? = some ⟨p.rootUnit, source⟩ :=
    unit ▸ (grows_of_runs runs placed).unit placed.unit
  have locate : t.sourceMap.locate i = _ := Source.Map.locate_map t.units hat hi
  refine ⟨(Source.Unit.mk p.rootUnit source).position (piece.offsetAt k), ?_, rfl, ?_⟩
  · rw [hmap, Source.Map.position?, locate, State.sourceMap, Source.Map.units_map]
    simp only [Option.map_some, Source.positionIn, found]
  · rw [Source.line_position]
    exact line

/-- A definition that goes over two lines, and the name that it defines. -/
theorem lines_kept_apply :
    (Session.new.tryProcess "#define A \\\n b\nA").1 = .ok "\n\nb" ∧
    lineFeeds "\n\nb" = lineFeeds "#define A \\\n b\nA" ∧
    ∀ i < "\n\nb".utf8ByteSize, ∃ position,
      (Session.new.tryProcess "#define A \\\n b\nA").2.2.sourceMap.position? i = some position ∧
      position.unit = "shader" ∧ position.line = lineAt "\n\nb" i := by
  let env := Session.new.settings
  let root := Session.new.entry "#define A \\\n b\nA"
  let x : Point := ⟨root.frame.afterLine ⟨['A'], ⟨15, 3, 1⟩⟩,
    ⟨Table.empty.define ⟨"A", none, [⟨.identifier, "b"⟩]⟩,
      #[⟨"shader", "#define A \\\n b\nA"⟩], #[.lineEnd 0 11, .lineEnd 0 14], [], ["shader"], [], #[]⟩⟩
  let y : Point := ⟨x.frame.afterToken ⟨.identifier, "A"⟩ ⟨[], ⟨16, 3, 2⟩⟩, x.state⟩
  have accepted : (Session.new.tryProcess "#define A \\\n b\nA").1 = .ok "\n\nb" := by cbv
  have stepDefine : root.step env = (.next x.frame, x.state) := by cbv
  have stepName : x.step env = (.next y.frame, y.state) := by cbv
  have stepEnd : y.step env = (.finished, (y.step env).2) := Prod.ext (by cbv) rfl
  have points : ∀ z, ReflTransGen (Advances env) root z → z = root ∨ z = x ∨ z = y := fun z hz =>
    (reach_of_next stepDefine hz).imp_right fun hz =>
      (reach_of_next stepName hz).imp_right (eq_of_reach_finished stepEnd)
  have alone : ∀ b, ¬Splices env root b := by
    rintro b ⟨reach, step⟩
    rcases points _ reach with rfl | rfl | rfl
    · cases stepDefine.symm.trans step
    · cases stepName.symm.trans step
    · cases stepEnd.symm.trans step
  have objects : ∀ z, z = root ∨ z = x ∨ z = y → ∀ d ∈ z.state.macros.entries, d.params = none := by
    rintro z (rfl | rfl | rfl) <;> decide
  have lexemes : (Cursor.ofString "#define A \\\n b\nA").lexemes .lenient =
      ([(⟨.punct, "#"⟩, ⟨0, 1, 1⟩), (⟨.identifier, "define"⟩, ⟨1, 1, 2⟩),
        (⟨.whitespace, " "⟩, ⟨7, 1, 8⟩), (⟨.identifier, "A"⟩, ⟨8, 1, 9⟩),
        (⟨.whitespace, " "⟩, ⟨9, 1, 10⟩), (⟨.punct, "\\"⟩, ⟨10, 1, 11⟩),
        (⟨.newline, "\n"⟩, ⟨11, 1, 12⟩), (⟨.whitespace, " "⟩, ⟨12, 2, 1⟩),
        (⟨.identifier, "b"⟩, ⟨13, 2, 2⟩), (⟨.newline, "\n"⟩, ⟨14, 2, 3⟩),
        (⟨.identifier, "A"⟩, ⟨15, 3, 1⟩)], ⟨[], ⟨16, 3, 2⟩⟩, none) := by cbv
  have keeps : ∀ z, ReflTransGen (Advances env) root z → z.KeepsLines := by
    intro z hz
    obtain ⟨before, crossed⟩ := crosses_of_reach hz
    exact keepsLines_of_lexemes crossed lexemes (by decide)
      fun u hu => absurd hu (Macro.not_takes (objects z (points z hz)))
  exact ⟨accepted, lines_kept accepted (fun _ hd => absurd hd List.not_mem_nil) alone keeps⟩

/-- A comment over two lines that is skipped, one on a directive line, and an argument list over two
lines: each takes a line feed from the output, and what follows the comment comes from the line after
the one that it is on. -/
theorem line_lost :
    ((Session.new.tryProcess "#if 0\n/*\n*/\n#endif\nx\n").1 = .ok "\n\n\nx\n" ∧
      (Session.new.tryProcess "#if 0\n/*\n*/\n#endif\nx\n").2.2.sourceMap.position? 3 =
        some ⟨"shader", 5, 1⟩ ∧ lineAt "\n\n\nx\n" 3 = 4 ∧
      lineFeeds "\n\n\nx\n" < lineFeeds "#if 0\n/*\n*/\n#endif\nx\n") ∧
    ((Session.new.tryProcess "#if 1 /*\n*/\nx\n#endif\n").1 = .ok "\nx\n\n" ∧
      lineFeeds "\nx\n\n" < lineFeeds "#if 1 /*\n*/\nx\n#endif\n") ∧
    ((Session.new.tryProcess "#define F(x) x\nF(a\n)\n").1 = .ok "\na\n" ∧
      lineFeeds "\na\n" < lineFeeds "#define F(x) x\nF(a\n)\n") :=
  ⟨⟨by cbv, by cbv, by decide, by decide⟩, ⟨by cbv, by decide⟩, ⟨by cbv, by decide⟩⟩

end Session

end Preprocess

end ShaderPass
