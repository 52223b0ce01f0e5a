import ShaderPass.Preprocess.Step
import ShaderPass.Proofs.Lexeme.Reading

/-!
# Proofs/Preprocess/Step — what the parts of a step leave as it is

A step expands the tokens that wait, obeys a directive and puts out line ends.  Of the state the
first and the last change nothing but what has been put out (`flush_eq`, `State.emitLineEnds_eq`), so
the step over a directive line does to all the rest what the directive does to it
(`step_of_atDirective`), and that is listed once for all that is to be shown of it
(`handles_of_handle`).  So are the ways in which a step fails (`stepFails_of_step`).
-/

namespace ShaderPass.Preprocess

open Lexeme (Cursor)
open Macro (Token Origin)
open Directive (parse? wordOf openingWords groupWords)

variable {env : Settings} {f f' : Frame} {s s₁ s' : State} {origin : Origin} {line : String}
  {d : Directive}

theorem State.emitTokens_eq (s : State) (tokens : List Token) : tokens.foldl State.emitToken s =
    { s with emitted := (tokens.foldl State.emitToken s).emitted } := by
  induction tokens generalizing s with
  | nil => rfl
  | cons t ts ih => exact ih (s.emitToken t)

/-- Putting out line ends changes nothing but what has been put out. -/
theorem State.emitLineEnds_eq (s : State) (unit : Nat) (ends : List Nat) :
    s.emitLineEnds unit ends = { s with emitted := (s.emitLineEnds unit ends).emitted } := by
  unfold State.emitLineEnds
  induction ends generalizing s with
  | nil => rfl
  | cons o os ih => exact ih (s.emitLineEnd unit o)

/-- **Expanding the tokens that wait changes nothing but what has been put out.** -/
theorem flush_eq (h : flush f s = .ok s₁) : s₁ = { s with emitted := s₁.emitted } := by
  unfold flush at h
  split at h
  next => cases h
  next tokens _ =>
    obtain rfl := Except.ok.inj h
    exact s.emitTokens_eq tokens

theorem isActive_flush (h : flush f s = .ok s₁) : s₁.isActive = s.isActive := by
  rw [flush_eq h]
  rfl

theorem groups_flush (h : flush f s = .ok s₁) : s₁.groups = s.groups := by rw [flush_eq h]

/-- Where nothing waits, nothing is put out. -/
theorem flush_of_waiting_nil (h : f.waiting = []) : flush f s = .ok s := by
  rw [flush, h, List.reverse_nil, Macro.expand]
  rfl

/-! ## Directive lines and lexemes -/

/-- **The step over a directive line does what the line leads to**, in the state after the tokens
that waited. -/
theorem step_of_atDirective {line : Directive.Line} {after : Cursor}
    (h : AtDirective f s s₁ line after) : step env f s =
      match handle env f f.origin line.text s₁ with
      | .error cause => (.failed ⟨cause, s₁.position f.origin⟩, s₁)
      | .ok (.proceed s₂) => (.next (f.afterLine after), s₂.emitLineEnds f.unit line.lineEnds)
      | .ok (.splice i) => (.splice i line.lineEnds (f.afterLine after), s₁) := by
  obtain ⟨l, c, hnext, hhash, hread⟩ := h.hash
  have hstep : step env f s = stepDirective env f c s := by
    simp only [step, hnext, h.atLineStart, hhash, and_self, if_true]
  cases hhandle : handle env f f.origin line.text s₁ with
  | error cause => simp only [hstep, stepDirective, h.flush, hread, hhandle]
  | ok effect =>
    cases effect with
    | proceed s₂ => simp only [hstep, stepDirective, h.flush, hread, hhandle]
    | splice i => simp only [hstep, stepDirective, h.flush, hread, hhandle]

theorem step_of_atLexeme {l : Lexeme} {c : Cursor} (h : AtLexeme f s l c) :
    step env f s = stepLexeme f l c s := by
  simp only [step, h.next, if_neg h.noHash]

theorem AtDirective.unique {s₂ : State} {line line' : Directive.Line} {after after' : Cursor}
    (h : AtDirective f s s₁ line after) (h' : AtDirective f s s₂ line' after') :
    s₁ = s₂ ∧ line = line' ∧ after = after' := by
  obtain ⟨l, c, hnext, -, hread⟩ := h.hash
  obtain ⟨l', c', hnext', -, hread'⟩ := h'.hash
  cases hnext.symm.trans hnext'
  cases hread.symm.trans hread'
  exact ⟨Except.ok.inj (h.flush.symm.trans h'.flush), rfl, rfl⟩

/-- The `#` of a directive line is no lexeme of the text. -/
theorem AtDirective.not_atLexeme {line : Directive.Line} {l : Lexeme} {after c : Cursor}
    (h : AtDirective f s s₁ line after) : ¬AtLexeme f s l c := by
  intro h'
  obtain ⟨l', c', hnext, hhash, -⟩ := h.hash
  cases hnext.symm.trans h'.next
  exact h'.noHash ⟨h.atLineStart, hhash⟩

theorem AtDirective.crosses {line : Directive.Line} {after : Cursor}
    (h : AtDirective f s s₁ line after) : f.cursor.Crosses line.lineEnds after := by
  obtain ⟨l, c, hnext, hhash, hread⟩ := h.hash
  have noNewline : l.kind ≠ .newline := by
    rw [Lexeme.isPunct, Bool.and_eq_true, beq_iff_eq] at hhash
    exact hhash.1 ▸ Kind.noConfusion
  exact .other (Cursor.reads_of_next hnext) noNewline (Cursor.crosses_of_readLine hread)

theorem AtLexeme.crosses {l : Lexeme} {c : Cursor} (h : AtLexeme f s l c) :
    f.cursor.Crosses (if l.kind = .newline then [f.origin.offset] else []) c := by
  have reads := Cursor.reads_of_next h.next
  split
  next newline => exact .lineEnd reads newline (.refl c)
  next noNewline => exact .other reads noNewline (.refl c)

/-- A step that goes on reads on from its cursor. -/
theorem crosses_of_next (h : step env f s = (.next f', s')) :
    ∃ ends, f.cursor.Crosses ends f'.cursor := by
  cases step_cases h with
  | directive reads => exact ⟨_, reads.crosses⟩
  | token reads => exact ⟨_, reads.crosses⟩
  | skippedLineEnd reads => exact ⟨_, reads.crosses⟩
  | skipped reads => exact ⟨_, reads.crosses⟩

theorem crosses_of_splice {i : Inclusion} {ends : List Nat}
    (h : step env f s = (.splice i ends f', s')) : f.cursor.Crosses ends f'.cursor := by
  cases step_cases h with
  | splice reads => exact reads.crosses

/-! ## Steps that fail -/

/-- How a step fails: over a lexeme, over the tokens that wait, over a directive line that cannot be
read, over what the line leads to, or over a group that is open at the end of the unit. -/
inductive StepFails (env : Settings) (f : Frame) (s : State) : Error → State → Prop
  | lexeme {fault : Lexeme.Fault} (next : f.cursor.next s.mode = .error fault) :
      StepFails env f s ⟨.lexeme fault, s.position f.origin⟩ s
  | flush {e : Error} (flush : flush f s = .error e) : StepFails env f s e s
  | line {s₁ : State} {l : Lexeme} {c : Cursor} {fault : Lexeme.Fault} {location : Location}
      (next : f.cursor.next s.mode = .ok (some (l, c))) (flush : flush f s = .ok s₁)
      (read : Directive.readLine c = .error (fault, location)) :
      StepFails env f s ⟨.lexeme fault, s₁.position ⟨f.unit, location.offset⟩⟩ s₁
  | handle {s₁ : State} {line : Directive.Line} {after : Cursor} {cause : Cause}
      (reads : AtDirective f s s₁ line after)
      (handle : handle env f f.origin line.text s₁ = .error cause) :
      StepFails env f s ⟨cause, s₁.position f.origin⟩ s₁
  | unterminated {s₁ : State} {g : Group} (atEnd : f.cursor.next s.mode = .ok none)
      (flush : flush f s = .ok s₁) (isOpen : s₁.outermostAbove? f.depth = some g) :
      StepFails env f s ⟨.unterminatedGroup, g.openedAt⟩ (s₁.closeAbove f.depth)

/-- **A step fails in one of the ways listed.** -/
theorem stepFails_of_step {e : Error} (h : step env f s = (.failed e, s')) :
    StepFails env f s e s' := by
  unfold step at h
  split at h
  next fault next =>
    cases h
    exact .lexeme next
  next atEnd =>
    unfold stepEnd at h
    split at h
    next flush =>
      cases h
      exact .flush flush
    next flush =>
      split at h
      next isOpen =>
        cases h
        exact .unterminated atEnd flush isOpen
      next => cases h
  next l c next =>
    split at h
    next hash =>
      unfold stepDirective at h
      split at h
      next flush =>
        cases h
        exact .flush flush
      next flush =>
        split at h
        next read =>
          cases h
          exact .line next flush read
        next read =>
          split at h
          next handle =>
            cases h
            exact .handle ⟨hash.1, ⟨l, c, next, hash.2, read⟩, flush⟩ handle
          next => cases h
          next => cases h
    next =>
      unfold stepLexeme at h
      repeat' split at h
      all_goals cases h

/-! ## What a line does to the state -/

/-- In text that is emitted, a line does what the directive on it leads to. -/
theorem handle_of_parse? {rest : List Char} (active : s.isActive = true)
    (parses : Directive.parse? line = some (d, rest)) :
    handle env f origin line s = obey env f origin s d := by
  simp only [handle, active, Bool.true_eq_false, false_and, if_false, parses]

/-- What a directive that counts does to the state, case by case. -/
inductive Obeys (env : Settings) (f : Frame) (origin : Origin) (s : State) : Directive → State → Prop
  | define {name body : String} {params : Option (List String)} {d : Macro.Definition}
      (reads : readDefinition name params body = .ok d) :
      Obeys env f origin s (.define name params body) (s.define env (s.position origin) d)
  | undefine (name : String) :
      Obeys env f origin s (.undefine name) { s with macros := s.macros.undefine name }
  | openGroup {guard : Guard} {holds : Bool} (value : guardHolds s.macros origin guard = .ok holds) :
      Obeys env f origin s (.openGroup guard)
        (s.openGroup (.opened true holds (s.position origin)))
  | elseIf {text : String} {g : Group} {holds : Bool} (above : s.groupAbove? f.depth = some g)
      (value : g.isUndecided = true → conditionHolds s.macros origin text = .ok holds) :
      Obeys env f origin s (.elseIf text) (s.setGroup (g.elseIf holds))
  | otherwise {g : Group} (above : s.groupAbove? f.depth = some g) :
      Obeys env f origin s .otherwise (s.setGroup g.otherwise)
  | endGroup {g : Group} (above : s.groupAbove? f.depth = some g) :
      Obeys env f origin s .endGroup s.closeGroup
  | notSpliced (path resolved : String) :
      Obeys env f origin s (.splice path) (s.note ⟨.notSplicedAgain resolved, s.position origin⟩)
  | once : Obeys env f origin s .once { s with marked := f.name :: s.marked }
  | passThrough (text : String) : Obeys env f origin s (.passThrough text) (s.emit (.passed text origin))
  | nothing : Obeys env f origin s .nothing s

theorem obeys_elseIf {text : String} (h : obey env f origin s (.elseIf text) = .ok (.proceed s')) :
    Obeys env f origin s (.elseIf text) s' := by
  simp only [obey] at h
  split at h
  next => cases h
  next above =>
    split at h
    next => cases h
    next =>
      split at h
      next =>
        split at h
        next => cases h
        next value =>
          cases h
          exact .elseIf above fun _ => value
      next decided =>
        cases h
        exact .elseIf above fun undecided => absurd undecided decided

/-- **A directive that goes on does one of the things listed.** -/
theorem obeys_of_obey (h : obey env f origin s d = .ok (.proceed s')) :
    Obeys env f origin s d s' := by
  cases d with
  | define name params body =>
    cases reads : readDefinition name params body with
    | error cause => simp [obey, reads, Except.map] at h
    | ok d =>
      simp only [obey, reads, Except.map, Except.ok.injEq, Effect.proceed.injEq] at h
      exact h ▸ .define reads
  | undefine name =>
    cases h
    exact .undefine name
  | openGroup guard =>
    simp only [obey] at h
    split at h
    next => cases h
    next value =>
      cases h
      exact .openGroup value
  | elseIf text => exact obeys_elseIf h
  | otherwise =>
    simp only [obey] at h
    split at h
    next => cases h
    next above =>
      split at h
      next => cases h
      next =>
        cases h
        exact .otherwise above
  | endGroup =>
    simp only [obey] at h
    split at h
    next => cases h
    next above =>
      cases h
      exact .endGroup above
  | splice path =>
    cases splicesIn_of_spliceIn h with
    | passedOver => exact .notSpliced path _
  | stop message => cases h
  | once =>
    cases h
    exact .once
  | passThrough text =>
    cases h
    exact .passThrough text
  | nothing =>
    cases h
    exact .nothing

/-- What a line that does not fail does to the state: in skipped text nothing, or it opens a group
that is never emitted, unless it is read as it is elsewhere. -/
inductive Handles (env : Settings) (f : Frame) (origin : Origin) (s : State) (line : String) :
    State → Prop
  | skipped (inactive : s.isActive = false) (word : wordOf line ∉ groupWords) :
      Handles env f origin s line s
  | opensSkipped (inactive : s.isActive = false) (word : wordOf line ∈ openingWords) :
      Handles env f origin s line (s.openGroup (.opened false false (s.position origin)))
  | obeys {d : Directive} {rest : List Char} {s' : State}
      (reads : ¬(s.isActive = false ∧ wordOf line ∈ openingWords))
      (parses : parse? line = some (d, rest)) (obeys : Obeys env f origin s d s') :
      Handles env f origin s line s'

/-- **A line does one of the things listed.** -/
theorem handles_of_handle (h : handle env f origin line s = .ok (.proceed s')) :
    Handles env f origin s line s' := by
  unfold handle at h
  simp only at h
  split at h
  next skipped =>
    cases h
    exact .skipped skipped.1 skipped.2
  next =>
    split at h
    next opens =>
      cases h
      exact .opensSkipped opens.1 opens.2
    next reads =>
      split at h
      next => cases h
      next parses => exact .obeys reads parses (obeys_of_obey h)

end ShaderPass.Preprocess
