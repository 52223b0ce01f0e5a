import ShaderPass.Proofs.Directive.FreeText
import ShaderPass.Proofs.Lexeme.LineStart
import ShaderPass.Proofs.Preprocess.Activation

/-!
# Proofs/Preprocess/OnLines — what is passed through stands on lines of its own

    put out   a  ⏎  ␣  /* c */  #version 300 es  ⏎  b
                    └─ starts ─┘└──── passed ───┘└ a line end, or nothing

A directive is read at the start of a line of its unit.  Where it is put out a line starts too:
blanks and comments are put out as they are, and an expansion leaves what comes after the last
invocation as it was (`startsLine_expands`).  A line comment starts no line, but what comes after it
is the line end.  The line end of the directive follows at once, unless the text of its unit ends
with it; then nothing more is put out before the line end of the unit that it is spliced into
(`onLines_of_runs`).
-/

namespace ShaderPass

open Lexeme (Cursor)

namespace Macro

/-! ## Lines in an expansion -/

/-- Whether a line starts after some tokens. -/
def startsLine (b : Bool) (ts : List Token) : Bool :=
  (ts.map Token.toLexeme).foldl Lexeme.startsLine b

variable {table : Table} {b b' : Bool} {t : Token} {ts us : List Token}

theorem startsLine_cons : startsLine b (t :: ts) = startsLine (t.toLexeme.startsLine b) ts := rfl

theorem startsLine_append : startsLine b (ts ++ us) = startsLine (startsLine b ts) us := by
  rw [startsLine, List.map_append, List.foldl_append]
  rfl

theorem startsLine_mono (hb : b = true → b' = true) (h : startsLine b ts = true) :
    startsLine b' ts = true := Lexeme.foldl_startsLine_mono hb h

/-- An argument list ends with a parenthesis. -/
theorem exists_closing_splitArguments {depth : Nat} {first rest : List Token}
    {more : List (List Token)} (h : splitArguments depth ts = some (first, more, rest)) :
    ∃ taken closing, ts = taken ++ closing :: rest ∧ closing.isPunct ')' = true := by
  induction ts generalizing depth first more rest with
  | nil => cases h
  | cons t ts ih =>
    unfold splitArguments at h
    split at h
    next hclosing =>
      cases h
      exact ⟨[], t, rfl, hclosing.2⟩
    all_goals
      split at h
      all_goals
        obtain ⟨⟨f, m, r⟩, hr, h⟩ := Option.map_eq_some_iff.1 h
        cases h
        obtain ⟨taken, closing, rfl, hclosing⟩ := ih hr
        exact ⟨t :: taken, closing, rfl, hclosing⟩

/-- What an invocation takes ends within a line. -/
theorem startsLine_call {inside tail : List Token} {args : List (List Token)}
    (opening : afterOpening ts = some inside) (closing : arguments inside = some (args, tail))
    (h : startsLine b ts = true) : startsLine false tail = true := by
  obtain ⟨⟨f, m, r⟩, hr, heq⟩ := Option.map_eq_some_iff.1 closing
  cases heq
  obtain ⟨before, rfl⟩ := suffix_afterOpening opening
  obtain ⟨taken, t, rfl, ht⟩ := exists_closing_splitArguments hr
  rw [startsLine_append, startsLine_append, startsLine_cons,
    Lexeme.startsLine_of_isSignificant (Lexeme.isSignificant_of_isPunct ht)] at h
  exact h

/-- **Where a line starts after some tokens, one starts after what they expand to.** -/
theorem startsLine_expands (h : Expands table ts us) (hts : startsLine b ts = true) :
    startsLine b us = true := by
  have name : ∀ {t : Token} {d : Definition} (b : Bool), table.applicable t = some d →
      t.toLexeme.startsLine b = false := fun b names =>
    Lexeme.startsLine_of_not_blank (by rw [(names_of_applicable names).1]; decide)
  induction h generalizing b with
  | nil => exact hts
  | keep _ _ ih => exact ih hts
  | object names _ _ ih =>
    rw [startsLine_cons, name b names] at hts
    refine ih ?_
    rw [startsLine_append]
    exact startsLine_mono Bool.false_ne_true.elim hts
  | call names opening closing _ _ _ _ _ ih =>
    rw [startsLine_cons, name b names] at hts
    refine ih ?_
    rw [startsLine_append]
    exact startsLine_mono Bool.false_ne_true.elim (startsLine_call opening closing hts)

end Macro

namespace Preprocess

open Directive (IsLine)

variable {env : Settings} {f : Frame} {x y : Point} {s s' s'' t : State}
  {es ms : List Emission} {b b' : Bool}

/-! ## Lines in the output -/

namespace Emission

/-- Whether a line starts after something is put out. -/
def startsLine (b : Bool) : Emission → Bool
  | .token t => t.toLexeme.startsLine b
  | .lineEnd _ _ => true
  | .passed _ _ => false

/-- The text that is passed through, if it is one. -/
def passed? : Emission → Option String
  | .passed text _ => some text
  | _ => none

/-- Whether this is a line end of a directive line or of skipped text. -/
def isLineEnd : Emission → Bool
  | .lineEnd _ _ => true
  | _ => false

end Emission

/-- Whether what is passed through stands on lines of its own. -/
def OnLines (b : Bool) : List Emission → Prop
  | [] => True
  | e :: es => (∀ text ∈ e.passed?, b = true ∧ IsLine text ∧
      ∀ e' ∈ es.head?, e'.isLineEnd = true) ∧ OnLines (e.startsLine b) es

/-- Whether the last of what is put out is passed through. -/
def EndsPassed (es : List Emission) : Prop := ∃ e ∈ es.getLast?, e.passed?.isSome = true

theorem onLines_append (hes : OnLines b es) (hms : OnLines (es.foldl Emission.startsLine b) ms)
    (hlast : EndsPassed es → ∀ e ∈ ms.head?, e.isLineEnd = true) : OnLines b (es ++ ms) := by
  induction es generalizing b with
  | nil => exact hms
  | cons e es ih =>
    obtain ⟨he, hes⟩ := hes
    cases es with
    | nil =>
      refine ⟨fun text htext => ?_, hms⟩
      obtain ⟨hb, hline, -⟩ := he text htext
      exact ⟨hb, hline, hlast ⟨e, rfl, Option.isSome_iff_exists.2 ⟨text, htext⟩⟩⟩
    | cons e' es =>
      refine ⟨he, ih hes hms fun h => hlast ?_⟩
      obtain ⟨e'', he'', hpassed⟩ := h
      exact ⟨e'', by rwa [List.getLast?_cons_cons], hpassed⟩

/-- What is put out later is on lines from there on. -/
theorem onLines_of_append (h : OnLines b (es ++ ms)) :
    OnLines (es.foldl Emission.startsLine b) ms := by
  induction es generalizing b with
  | nil => exact h
  | cons e es ih => exact ih h.2

/-- Where nothing is passed through, there is nothing to show. -/
theorem onLines_of_none (h : ∀ e ∈ es, e.passed? = none) : OnLines b es := by
  induction es generalizing b with
  | nil => exact trivial
  | cons e es ih =>
    obtain ⟨he, hes⟩ := List.forall_mem_cons.1 h
    exact ⟨fun text htext => absurd (he.symm.trans htext) nofun, ih hes⟩

theorem endsPassed_append (hms : ∀ e ∈ ms, e.passed? = none) (h : EndsPassed (es ++ ms)) :
    ms = [] ∧ EndsPassed es := by
  obtain ⟨e, he, hpassed⟩ := h
  by_cases hnil : ms = []
  · rw [hnil, List.append_nil] at he
    exact ⟨hnil, e, he, hpassed⟩
  · rw [List.getLast?_append_of_ne_nil _ hnil] at he
    rw [hms e (List.mem_of_getLast? he)] at hpassed
    cases hpassed

theorem passed?_tokens (ts : List Macro.Token) : ∀ e ∈ ts.map Emission.token, e.passed? = none :=
  List.forall_mem_map.2 fun _ _ => rfl

theorem passed?_lineEnds (unit : Nat) (ends : List Nat) :
    ∀ e ∈ ends.map (Emission.lineEnd unit), e.passed? = none :=
  List.forall_mem_map.2 fun _ _ => rfl

theorem startsLine_tokens (ts : List Macro.Token) :
    (ts.map Emission.token).foldl Emission.startsLine b = Macro.startsLine b ts := by
  rw [Macro.startsLine, List.foldl_map, List.foldl_map]
  rfl

/-- A line starts after line ends. -/
theorem startsLine_lineEnds (unit : Nat) {ends : List Nat} (h : ends ≠ []) :
    (ends.map (Emission.lineEnd unit)).foldl Emission.startsLine b = true := by
  induction ends generalizing b with
  | nil => exact absurd rfl h
  | cons o ends ih =>
    cases ends with
    | nil => rfl
    | cons o' ends => exact ih (List.cons_ne_nil _ _)

/-! ## Points between the lines -/

/-- Whether a line starts after what has been put out. -/
def State.startsLine (s : State) : Bool := s.emitted.toList.foldl Emission.startsLine true

/-- Whether a line starts after what has been put out and what waits. -/
def Point.startsLine (x : Point) : Bool :=
  Macro.startsLine x.state.startsLine x.frame.waiting.reverse

/-- Whether a cursor is at a line feed or at the end of the text. -/
def AtLineEnd (c : Cursor) : Prop := ∀ y ∈ c.rest.head?, y = '\n'

/-- Whether the output is on lines at a point: what has been passed through is, a line starts where a
directive could be read, and nothing is left of the text where nothing comes after what has been
passed through. -/
structure Point.Aligned (x : Point) : Prop where
  lines : OnLines true x.state.emitted.toList
  starts : x.frame.atLineStart = true → AtLineEnd x.frame.cursor ∨ x.startsLine = true
  idle : x.state.isActive = false → x.frame.waiting = []
  last : EndsPassed x.state.emitted.toList → x.frame.cursor.rest = [] ∧ x.frame.waiting = []

theorem startsLine_adds (h : s.Adds es s') :
    s'.startsLine = es.foldl Emission.startsLine s.startsLine := by
  rw [State.startsLine, h, List.foldl_append]
  rfl

/-- Only a line end is read at a line feed. -/
theorem kind_of_atLineEnd {mode : Lexeme.Mode} {c c' : Cursor} {l : Lexeme} (h : AtLineEnd c)
    (next : c.next mode = .ok (some (l, c'))) : l.kind = .newline := by
  have hread := Cursor.reads_of_next next
  cases hrest : c.rest with
  | nil => exact absurd (hread.rest.symm.trans hrest) (by simp [hread.nonempty])
  | cons y text =>
    obtain rfl : y = '\n' := h y (by rw [hrest]; rfl)
    have hform := hread.form
    rw [hrest, Lexeme.Form.form_newline] at hform
    exact (congrArg Prod.fst hform).symm

/-- A line comment ends where its line does. -/
theorem atLineEnd_of_lineComment {c c' : Cursor} {l : Lexeme}
    (next : c.next .strict = .ok (some (l, c'))) (hk : l.kind = .lineComment) : AtLineEnd c' := by
  have hread := Cursor.reads_of_next next
  have hform := Lexeme.form_of_isWhole_lineComment (Lexeme.isWhole_of_next next) hk c'.rest
  rw [← hread.rest, hread.form] at hform
  have hlength := congrArg Prod.snd hform
  intro y hy
  by_contra hne
  obtain ⟨text, hrest⟩ := List.head?_eq_some_iff.1 hy
  simp [hrest, hne] at hlength

/-- What waits is put out on the lines that it waits on. -/
theorem aligned_flush (hx : x.Aligned) (h : flush x.frame x.state = .ok s) :
    OnLines true s.emitted.toList ∧ (x.startsLine = true → s.startsLine = true) ∧
      (EndsPassed s.emitted.toList → x.frame.cursor.rest = []) := by
  obtain ⟨tokens, hexpand, hadds⟩ := adds_flush h
  have hexpands := Macro.expands_of_expand hexpand
  refine ⟨?_, fun hstarts => ?_, fun hlast => ?_⟩
  · rw [hadds]
    refine onLines_append hx.lines (onLines_of_none (passed?_tokens tokens)) fun hlast => ?_
    rw [(hx.last hlast).2] at hexpands
    cases hexpands
    exact nofun
  · rw [startsLine_adds hadds, startsLine_tokens]
    exact Macro.startsLine_expands hexpands hstarts
  · rw [hadds] at hlast
    exact (hx.last (endsPassed_append (passed?_tokens tokens) hlast).2).1

/-- After a directive line, or a text spliced in for one, its line ends are put out. -/
theorem aligned_afterLine (hs : OnLines true s.emitted.toList) (f : Frame) {after : Cursor}
    {ends : List Nat} (hends : ends = [] → after.rest = []) (unit : Nat) :
    Point.Aligned ⟨f.afterLine after, s.emitLineEnds unit ends⟩ := by
  have hadds := s.adds_emitLineEnds unit ends
  have hnone := passed?_lineEnds unit ends
  refine ⟨?_, fun _ => ?_, fun _ => rfl, fun hlast => ?_⟩
  · rw [hadds]
    refine onLines_append hs (onLines_of_none hnone) fun _ e he => ?_
    obtain ⟨o, -, rfl⟩ := List.mem_map.1 (List.mem_of_head? he)
    rfl
  · by_cases hnil : ends = []
    · refine .inl fun y hy => ?_
      rw [show (f.afterLine after).cursor.rest = [] from hends hnil] at hy
      cases hy
    · refine .inr ?_
      show State.startsLine _ = true
      rw [startsLine_adds hadds, startsLine_lineEnds unit hnil]
  · rw [hadds] at hlast
    exact ⟨hends (List.map_eq_nil_iff.1 (endsPassed_append hnone hlast).1), rfl⟩

/-- The beginning of a unit. -/
theorem aligned_begin (hs : OnLines true s.emitted.toList) (hstarts : s.startsLine = true)
    (hlast : ¬EndsPassed s.emitted.toList) (name text directory : String) :
    Point.Aligned ⟨(begin s name text directory).1, (begin s name text directory).2⟩ :=
  ⟨hs, fun _ => .inr hstarts, fun _ => rfl, fun h => absurd h hlast⟩

theorem startsLine_afterToken (f : Frame) (s : State) (l : Lexeme) (c : Cursor) :
    Point.startsLine ⟨f.afterToken l c, s⟩ = l.startsLine (Point.startsLine ⟨f, s⟩) := by
  show Macro.startsLine s.startsLine (f.token l :: f.waiting).reverse = _
  rw [List.reverse_cons, Macro.startsLine_append]
  rfl

/-- Where something is read, nothing has been passed through that nothing has been put out after. -/
theorem Point.Aligned.not_endsPassed (hx : x.Aligned) {mode : Lexeme.Mode} {l : Lexeme} {c : Cursor}
    (next : x.frame.cursor.next mode = .ok (some (l, c))) :
    ¬EndsPassed x.state.emitted.toList := by
  intro hlast
  have hlt := Cursor.next_rest_lt next
  rw [(hx.last hlast).1] at hlt
  exact Nat.not_lt_zero _ hlt

/-- Where a directive is read, a line starts in the output. -/
theorem aligned_atDirective {line : Directive.Line} {after : Cursor} (hx : x.Aligned)
    (h : AtDirective x.frame x.state s line after) : OnLines true s.emitted.toList ∧
      s.startsLine = true ∧ ¬EndsPassed s.emitted.toList := by
  obtain ⟨hlines, hstarts, hlast⟩ := aligned_flush hx h.flush
  obtain ⟨l, c, next, hash, -⟩ := h.hash
  refine ⟨hlines, hstarts ((hx.starts h.atLineStart).resolve_left fun hend => ?_), fun hpassed => ?_⟩
  · rw [Lexeme.isPunct, kind_of_atLineEnd hend next] at hash
    cases hash
  · have hlt := Cursor.next_rest_lt next
    rw [hlast hpassed] at hlt
    exact Nat.not_lt_zero _ hlt

/-- A directive line puts out one line at most. -/
theorem onLines_handle {origin : Macro.Origin} {line : String} (hs : OnLines true s.emitted.toList)
    (hstarts : s.startsLine = true) (hlast : ¬EndsPassed s.emitted.toList)
    (h : handle env f origin line s = .ok (.proceed s')) : OnLines true s'.emitted.toList := by
  obtain hadds | ⟨text, rest, parses, hadds⟩ := adds_handle h
  · rw [hadds]
    exact onLines_append hs trivial fun h => absurd h hlast
  · rw [hadds]
    refine onLines_append hs ⟨?_, trivial⟩ fun h => absurd h hlast
    rintro text ⟨⟩
    exact ⟨hstarts, Directive.isLine_of_passThrough parses, nofun⟩

/-- Only trivia keeps a line at its start. -/
theorem atLineStart_afterLexeme {l : Lexeme} {c : Cursor} (hk : l.kind ≠ .newline)
    (h : (f.afterLexeme l c).atLineStart = true) : l.isTrivia = true ∧ f.atLineStart = true := by
  have h : (if l.kind = .newline then true else if l.isTrivia then f.atLineStart else false) = true := h
  rw [if_neg hk] at h
  split at h
  next htrivia => exact ⟨htrivia, h⟩
  next => cases h

/-- Where something other than a line end is read at the start of a line, a line starts in the
output. -/
theorem Point.Aligned.startsLine (hx : x.Aligned) {l : Lexeme} {c : Cursor}
    (h : AtLexeme x.frame x.state l c) (hk : l.kind ≠ .newline)
    (hstart : x.frame.atLineStart = true) : x.startsLine = true :=
  (hx.starts hstart).resolve_left fun hend => hk (kind_of_atLineEnd hend h.next)

theorem aligned_token {l : Lexeme} {c : Cursor} (hx : x.Aligned)
    (h : AtLexeme x.frame x.state l c) (active : x.state.isActive = true) :
    Point.Aligned ⟨x.frame.afterToken l c, x.state⟩ := by
  refine ⟨hx.lines, fun hstart => ?_, fun inactive => ?_, fun hlast => ?_⟩
  · rw [startsLine_afterToken]
    by_cases hk : l.kind = .newline
    · exact .inr (Lexeme.startsLine_newline _ hk)
    obtain ⟨htrivia, hstart⟩ := atLineStart_afterLexeme (c := c) hk hstart
    have hstarts : Point.startsLine ⟨x.frame, x.state⟩ = true := hx.startsLine h hk hstart
    by_cases hcomment : l.kind = .lineComment
    · -- No line starts after a line comment, but what comes next is the line end.
      have next := h.next
      rw [State.mode, if_pos active] at next
      exact .inl (atLineEnd_of_lineComment next hcomment)
    · exact .inr ((Lexeme.startsLine_of_isTrivia htrivia hcomment).trans hstarts)
  · exact absurd (inactive.symm.trans active) Bool.false_ne_true
  · exact absurd hlast (hx.not_endsPassed h.next)

theorem aligned_skippedLineEnd {l : Lexeme} {c : Cursor} (hx : x.Aligned)
    (inactive : x.state.isActive = false) (unit offset : Nat) :
    Point.Aligned ⟨x.frame.afterLexeme l c, x.state.emitLineEnd unit offset⟩ := by
  have hadds : x.state.Adds [.lineEnd unit offset] (x.state.emitLineEnd unit offset) :=
    x.state.adds_emit _
  refine ⟨?_, fun _ => .inr ?_, fun _ => hx.idle inactive, fun hlast => ?_⟩
  · rw [hadds]
    exact onLines_append hx.lines (onLines_of_none (by simp [Emission.passed?])) fun _ => by
      simp [Emission.isLineEnd]
  · show Macro.startsLine (State.startsLine _) x.frame.waiting.reverse = true
    rw [hx.idle inactive, startsLine_adds hadds]
    rfl
  · rw [hadds] at hlast
    exact absurd (endsPassed_append (by simp [Emission.passed?]) hlast).1 (List.cons_ne_nil _ _)

theorem aligned_skipped {l : Lexeme} {c : Cursor} (hx : x.Aligned)
    (h : AtLexeme x.frame x.state l c) (inactive : x.state.isActive = false)
    (hk : l.kind ≠ .newline) : Point.Aligned ⟨x.frame.afterLexeme l c, x.state⟩ :=
  ⟨hx.lines, fun hstart => .inr (hx.startsLine h hk (atLineStart_afterLexeme hk hstart).2),
    fun _ => hx.idle inactive, fun hlast => absurd hlast (hx.not_endsPassed h.next)⟩

/-- **A step goes on with the output on lines.** -/
theorem aligned_next {f' : Frame} (hx : x.Aligned) (h : x.step env = (.next f', s')) :
    Point.Aligned ⟨f', s'⟩ := by
  cases step_cases h with
  | directive reads handle =>
    obtain ⟨hlines, hstarts, hlast⟩ := aligned_atDirective hx reads
    obtain ⟨l, c, next, -, hline⟩ := reads.hash
    exact aligned_afterLine (onLines_handle hlines hstarts hlast handle) _
      (Cursor.rest_eq_nil_of_readLine hline) _
  | token reads active => exact aligned_token hx reads active
  | skippedLineEnd _ inactive => exact aligned_skippedLineEnd hx inactive _ _
  | skipped reads inactive noNewline => exact aligned_skipped hx reads inactive noNewline

theorem aligned_splice {f' : Frame} {i : Inclusion} {ends : List Nat} (hx : x.Aligned)
    (h : x.step env = (.splice i ends f', s')) : (s'.entry i).Aligned ∧
      ∀ s'' : State, OnLines true s''.emitted.toList →
        Point.Aligned ⟨f', s''.emitLineEnds x.frame.unit ends⟩ := by
  cases step_cases h with
  | splice reads handle =>
    obtain ⟨hlines, hstarts, hlast⟩ := aligned_atDirective hx reads
    obtain ⟨l, c, next, -, hline⟩ := reads.hash
    exact ⟨aligned_begin hlines hstarts hlast _ _ _, fun s'' hs'' =>
      aligned_afterLine hs'' _ (Cursor.rest_eq_nil_of_readLine hline) _⟩

theorem onLines_finished (hx : x.Aligned) (h : x.step env = (.finished, s')) :
    OnLines true s'.emitted.toList := by
  cases step_cases h with
  | finish _ flush => exact (aligned_flush hx flush).1

/-- **A run puts out what it passes through on lines of its own.** -/
theorem onLines_of_runs (h : Runs env x t) (hx : x.Aligned) : OnLines true t.emitted.toList := by
  induction h with
  | finish step => exact onLines_finished hx step
  | next step _ ih => exact ih (aligned_next hx step)
  | splice step _ _ ih ih' =>
    obtain ⟨hentry, hrest⟩ := aligned_splice hx step
    exact ih' (hrest _ (ih hentry))

/-! ## The output of a session -/

namespace Session

/-- What the run of a source puts out, in order. -/
def emissions (p : Session) (source : String) : List Emission :=
  (p.tryProcess source).2.2.state.emitted.toList

/-- **What a session passes through stands on lines of its own in the output**, whatever it has been
used for. -/
theorem onLines_emissions {p : Session} {source output : String}
    (h : (p.tryProcess source).1 = .ok output) : OnLines true (p.emissions source) := by
  have hbegin := aligned_begin (s := p.state.clear) trivial rfl (by simp [EndsPassed, State.clear])
  exact onLines_of_runs (runs_of_tryProcess h).1 (hbegin p.rootUnit source p.basePath)

end Session

end Preprocess

end ShaderPass
