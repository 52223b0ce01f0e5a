import ShaderPass.Directive.Line
import ShaderPass.Directive.Parse
import ShaderPass.Preprocess.Condition
import ShaderPass.Preprocess.State

/-!
# Preprocess/Step — one step through a unit

A step reads one lexeme, or one whole directive line.  Emitted text collects in the frame and is
expanded as a whole before the next directive, so that an invocation may go over several lines but
not over a directive.  Text that is not emitted is dropped but for its line ends, and of its
directives only those of conditional groups are looked at.

A step never splices a text in by itself: it ends with the **inclusion** that is asked for, and
`Preprocess/Run` goes on from there.
-/

namespace ShaderPass.Preprocess

open Lexeme (Cursor)
open Macro (Token Origin)

/-- A text to be spliced in. -/
structure Inclusion where
  path : String
  text : String
  deriving DecidableEq, Repr

/-- What a directive leads to. -/
inductive Effect
  | proceed (s : State)
  | splice (i : Inclusion)
  deriving Repr

/-- What a step leads to: the end of the unit, a failure, the next step, or a text to be spliced in
before the next step, with the line ends to put out after it. -/
inductive Outcome
  | finished
  | failed (e : Error)
  | next (f : Frame)
  | splice (i : Inclusion) (lineEnds : List Nat) (f : Frame)
  deriving Repr

/-! ## Directives -/

/-- The first name that stands in a list for the second time. -/
def firstRepeated (seen : List String) : List String → Option String
  | [] => none
  | name :: names => if name ∈ seen then some name else firstRepeated (name :: seen) names

/-- The macro that a definition defines. -/
def readDefinition (name : String) (params : Option (List String)) (body : String) :
    Except Cause Macro.Definition :=
  match firstRepeated [] (params.getD []) with
  | some param => .error (.duplicateParam param name)
  | none =>
    match Macro.Definition.read name params body with
    | .error (fault, _) => .error (.definition name fault)
    | .ok d => if name = "defined" then .error .reservedName else .ok d

/-- The state after a definition; a predefined macro that is defined anew is worth a notice. -/
def State.define (s : State) (env : Settings) (position : Source.Position) (d : Macro.Definition) :
    State :=
  let s' := { s with macros := s.macros.define d }
  if s.macros.isDefined d.name ∧ d.name ∈ env.predefined then
    s'.note ⟨.predefinedRedefined d.name, position⟩
  else s'

/-- What an include directive leads to. -/
def spliceIn (env : Settings) (f : Frame) (position : Source.Position) (path : String) (s : State) :
    Except Cause Effect :=
  match env.library.resolve? f.directory env.basePath path with
  | none => .error (.unresolved path)
  | some resolved =>
    if resolved ∈ s.chain then .error (.circular (resolved :: s.chain).reverse)
    else if resolved ∈ s.marked then
      .ok (.proceed (s.note ⟨.notSplicedAgain resolved, position⟩))
    else .ok (.splice ⟨resolved, (env.library.text? resolved).getD ""⟩)

/-- What a directive that counts leads to. -/
def obey (env : Settings) (f : Frame) (origin : Origin) (s : State) :
    Directive → Except Cause Effect
  | .define name params body =>
    (readDefinition name params body).map fun d =>
      .proceed (s.define env (s.position origin) d)
  | .undefine name => .ok (.proceed { s with macros := s.macros.undefine name })
  | .openGroup guard =>
    match guardHolds s.macros origin guard with
    | .error cause => .error (.condition cause)
    | .ok holds => .ok (.proceed (s.openGroup (.opened true holds (s.position origin))))
  | .elseIf text =>
    match s.groupAbove? f.depth with
    | none => .error (.withoutGroup .elseIf)
    | some g =>
      if g.seenElse then .error (.afterElse .elseIf)
      else if g.isUndecided then
        match conditionHolds s.macros origin text with
        | .error cause => .error (.condition cause)
        | .ok holds => .ok (.proceed (s.setGroup (g.elseIf holds)))
      else .ok (.proceed (s.setGroup (g.elseIf false)))
  | .otherwise =>
    match s.groupAbove? f.depth with
    | none => .error (.withoutGroup .otherwise)
    | some g =>
      if g.seenElse then .error (.afterElse .otherwise)
      else .ok (.proceed (s.setGroup g.otherwise))
  | .endGroup =>
    match s.groupAbove? f.depth with
    | none => .error (.withoutGroup .endGroup)
    | some _ => .ok (.proceed s.closeGroup)
  | .splice path => spliceIn env f (s.position origin) path s
  | .stop message => .error (.stopped message)
  | .once => .ok (.proceed { s with marked := f.name :: s.marked })
  | .passThrough text => .ok (.proceed (s.emit (.passed text origin)))
  | .nothing => .ok (.proceed s)

/-- What a directive line leads to.  Where text is not emitted, a line that is of no group counts
for nothing, and one that opens a group opens one that is never emitted, whatever else it says. -/
def handle (env : Settings) (f : Frame) (origin : Origin) (line : String) (s : State) :
    Except Cause Effect :=
  let word := Directive.wordOf line
  if s.isActive = false ∧ word ∉ Directive.groupWords then .ok (.proceed s)
  else if s.isActive = false ∧ word ∈ Directive.openingWords then
    .ok (.proceed (s.openGroup (.opened false false (s.position origin))))
  else
    match Directive.parse? line with
    | none => .error (.ofBadLine word line)
    | some (d, _) => obey env f origin s d

/-! ## Steps -/

/-- The frame after a directive line. -/
def Frame.afterLine (f : Frame) (c : Cursor) : Frame := { f with cursor := c, waiting := [] }

/-- The frame after a lexeme that is dropped. -/
def Frame.afterLexeme (f : Frame) (l : Lexeme) (c : Cursor) : Frame :=
  { f with
    cursor := c
    atLineStart := if l.kind = .newline then true else if l.isTrivia then f.atLineStart else false }

/-- The token of a lexeme at the cursor. -/
def Frame.token (f : Frame) (l : Lexeme) : Token := ⟨l, f.origin, true, []⟩

/-- The frame after a lexeme that waits to be expanded. -/
def Frame.afterToken (f : Frame) (l : Lexeme) (c : Cursor) : Frame :=
  { f.afterLexeme l c with waiting := f.token l :: f.waiting }

/-- The state after the waiting tokens of a frame have been expanded and put out. -/
def flush (f : Frame) (s : State) : Except Error State :=
  match Macro.expand s.macros f.waiting.reverse with
  | .error (fault, origin) => .error ⟨.invocation fault, s.position origin⟩
  | .ok tokens => .ok (tokens.foldl State.emitToken s)

/-- The step at the end of a unit. -/
def stepEnd (f : Frame) (s : State) : Outcome × State :=
  match flush f s with
  | .error e => (.failed e, s)
  | .ok s =>
    match s.outermostAbove? f.depth with
    | some g => (.failed ⟨.unterminatedGroup, g.openedAt⟩, s.closeAbove f.depth)
    | none => (.finished, s.leave)

/-- The step over a directive line; the cursor is after its `#`. -/
def stepDirective (env : Settings) (f : Frame) (c : Cursor) (s : State) : Outcome × State :=
  match flush f s with
  | .error e => (.failed e, s)
  | .ok s =>
    match Directive.readLine c with
    | .error (fault, location) =>
      (.failed ⟨.lexeme fault, s.position ⟨f.unit, location.offset⟩⟩, s)
    | .ok (line, after) =>
      match handle env f f.origin line.text s with
      | .error cause => (.failed ⟨cause, s.position f.origin⟩, s)
      | .ok (.proceed s) => (.next (f.afterLine after), s.emitLineEnds f.unit line.lineEnds)
      | .ok (.splice i) => (.splice i line.lineEnds (f.afterLine after), s)

/-- The step over a lexeme of the text; the cursor is after it. -/
def stepLexeme (f : Frame) (l : Lexeme) (c : Cursor) (s : State) : Outcome × State :=
  if s.isActive then (.next (f.afterToken l c), s)
  else if l.kind = .newline then
    (.next (f.afterLexeme l c), s.emitLineEnd f.unit f.origin.offset)
  else (.next (f.afterLexeme l c), s)

/-- One step through a unit. -/
def step (env : Settings) (f : Frame) (s : State) : Outcome × State :=
  match f.cursor.next s.mode with
  | .error fault => (.failed ⟨.lexeme fault, s.position f.origin⟩, s)
  | .ok none => stepEnd f s
  | .ok (some (l, c)) =>
    if f.atLineStart ∧ l.isPunct '#' then stepDirective env f c s else stepLexeme f l c s

/-! ## What a step can do -/

/-- The step at a frame is over a directive line: the cursor after its `#`, the state in which the
directive is handled, its line and the cursor after that. -/
structure AtDirective (f : Frame) (s : State) (s₁ : State) (line : Directive.Line) (after : Cursor) :
    Prop where
  atLineStart : f.atLineStart = true
  hash : ∃ l c, f.cursor.next s.mode = .ok (some (l, c)) ∧ l.isPunct '#' = true ∧
    Directive.readLine c = .ok (line, after)
  flush : flush f s = .ok s₁

/-- The step at a frame is over a lexeme of the text. -/
structure AtLexeme (f : Frame) (s : State) (l : Lexeme) (c : Cursor) : Prop where
  next : f.cursor.next s.mode = .ok (some (l, c))
  noHash : ¬(f.atLineStart = true ∧ l.isPunct '#' = true)

/-- What a step leads to, case by case. -/
inductive Steps (env : Settings) (f : Frame) (s : State) : Outcome → State → Prop
  | failed {e : Error} : Steps env f s (.failed e) s
  | failedAfter {s₁ : State} {e : Error} (flush : flush f s = .ok s₁) : Steps env f s (.failed e) s₁
  | unterminated {s₁ : State} {e : Error} (flush : flush f s = .ok s₁) :
      Steps env f s (.failed e) (s₁.closeAbove f.depth)
  | finish {s₁ : State} (atEnd : f.cursor.next s.mode = .ok none) (flush : flush f s = .ok s₁)
      (closed : s₁.outermostAbove? f.depth = none) : Steps env f s .finished s₁.leave
  | directive {s₁ s₂ : State} {line : Directive.Line} {after : Cursor}
      (reads : AtDirective f s s₁ line after)
      (handle : handle env f f.origin line.text s₁ = .ok (.proceed s₂)) :
      Steps env f s (.next (f.afterLine after)) (s₂.emitLineEnds f.unit line.lineEnds)
  | splice {s₁ : State} {line : Directive.Line} {after : Cursor} {i : Inclusion}
      (reads : AtDirective f s s₁ line after)
      (handle : handle env f f.origin line.text s₁ = .ok (.splice i)) :
      Steps env f s (.splice i line.lineEnds (f.afterLine after)) s₁
  | token {l : Lexeme} {c : Cursor} (reads : AtLexeme f s l c) (active : s.isActive = true) :
      Steps env f s (.next (f.afterToken l c)) s
  | skippedLineEnd {l : Lexeme} {c : Cursor} (reads : AtLexeme f s l c)
      (inactive : s.isActive = false) (newline : l.kind = .newline) :
      Steps env f s (.next (f.afterLexeme l c)) (s.emitLineEnd f.unit f.origin.offset)
  | skipped {l : Lexeme} {c : Cursor} (reads : AtLexeme f s l c) (inactive : s.isActive = false)
      (noNewline : l.kind ≠ .newline) : Steps env f s (.next (f.afterLexeme l c)) s

/-- **A step does one of the things listed.** -/
theorem step_cases {env : Settings} {f : Frame} {s s' : State} {o : Outcome}
    (h : step env f s = (o, s')) : Steps env f s o s' := by
  unfold step at h
  split at h
  next =>
    obtain ⟨rfl, rfl⟩ := Prod.mk.inj h
    exact .failed
  next atEnd =>
    unfold stepEnd at h
    split at h
    next =>
      obtain ⟨rfl, rfl⟩ := Prod.mk.inj h
      exact .failed
    next s₁ hf =>
      split at h
      next =>
        obtain ⟨rfl, rfl⟩ := Prod.mk.inj h
        exact .unterminated hf
      next closed =>
        obtain ⟨rfl, rfl⟩ := Prod.mk.inj h
        exact .finish atEnd hf closed
  next l c hn =>
    split at h
    next hl =>
      unfold stepDirective at h
      split at h
      next =>
        obtain ⟨rfl, rfl⟩ := Prod.mk.inj h
        exact .failed
      next s₁ hf =>
        split at h
        next =>
          obtain ⟨rfl, rfl⟩ := Prod.mk.inj h
          exact .failedAfter hf
        next line after hr =>
          have reads : AtDirective f s s₁ line after := ⟨hl.1, ⟨l, c, hn, hl.2, hr⟩, hf⟩
          split at h
          next =>
            obtain ⟨rfl, rfl⟩ := Prod.mk.inj h
            exact .failedAfter hf
          next hh =>
            obtain ⟨rfl, rfl⟩ := Prod.mk.inj h
            exact .directive reads hh
          next hh =>
            obtain ⟨rfl, rfl⟩ := Prod.mk.inj h
            exact .splice reads hh
    next hl =>
      have reads : AtLexeme f s l c := ⟨hn, hl⟩
      unfold stepLexeme at h
      split at h
      next active =>
        obtain ⟨rfl, rfl⟩ := Prod.mk.inj h
        exact .token reads active
      next inactive =>
        have inactive : s.isActive = false := by simpa using inactive
        split at h
        next newline =>
          obtain ⟨rfl, rfl⟩ := Prod.mk.inj h
          exact .skippedLineEnd reads inactive newline
        next noNewline =>
          obtain ⟨rfl, rfl⟩ := Prod.mk.inj h
          exact .skipped reads inactive noNewline

/-! ## Texts that are asked for -/

/-- An inclusion names a text of the library that is not on the chain. -/
structure Inclusion.Fresh (env : Settings) (s : State) (i : Inclusion) : Prop where
  text : env.library.text? i.path = some i.text
  offChain : i.path ∉ s.chain

/-- What a directive that asks for a text leads to, unless it fails: a text that is marked is passed
over with a notice, any other is a text of the library that is not on the chain. -/
inductive SplicesIn (env : Settings) (position : Source.Position) (s : State) : Effect → Prop
  | passedOver {resolved : String} (marked : resolved ∈ s.marked) :
      SplicesIn env position s (.proceed (s.note ⟨.notSplicedAgain resolved, position⟩))
  | splice {i : Inclusion} (fresh : i.Fresh env s) (unmarked : i.path ∉ s.marked) :
      SplicesIn env position s (.splice i)

theorem splicesIn_of_spliceIn {env : Settings} {f : Frame} {position : Source.Position}
    {path : String} {s : State} {e : Effect} (h : spliceIn env f position path s = .ok e) :
    SplicesIn env position s e := by
  unfold spliceIn at h
  split at h
  next => cases h
  next resolved resolves =>
    split at h
    next => cases h
    next offChain =>
      split at h
      next marked =>
        cases h
        exact .passedOver marked
      next unmarked =>
        cases h
        -- A path resolves only to one that the library has a text for.
        have found : env.library.contains resolved = true := List.find?_some resolves
        obtain ⟨text, ht⟩ := Option.isSome_iff_exists.1 found
        exact .splice ⟨by simp [ht], offChain⟩ unmarked

/-! ## What directives do not touch -/

/-- The state after a directive knows the same units and the same chain. -/
structure State.SamePlace (s s' : State) : Prop where
  units : s'.units = s.units
  chain : s'.chain = s.chain

namespace State.SamePlace

theorem refl (s : State) : s.SamePlace s := ⟨rfl, rfl⟩

theorem trans {s s' s'' : State} (h : s.SamePlace s') (h' : s'.SamePlace s'') : s.SamePlace s'' :=
  ⟨h'.units.trans h.units, h'.chain.trans h.chain⟩

theorem emit (s : State) (e : Emission) : s.SamePlace (s.emit e) := ⟨rfl, rfl⟩

theorem define (s : State) (env : Settings) (position : Source.Position) (d : Macro.Definition) :
    s.SamePlace (s.define env position d) := by
  unfold State.define
  split <;> exact ⟨rfl, rfl⟩

theorem emitLineEnds (s : State) (unit : Nat) (offsets : List Nat) :
    s.SamePlace (s.emitLineEnds unit offsets) := by
  unfold State.emitLineEnds
  induction offsets generalizing s with
  | nil => exact refl s
  | cons o os ih => exact (emit s _).trans (ih _)

theorem emitTokens (s : State) (tokens : List Token) :
    s.SamePlace (tokens.foldl State.emitToken s) := by
  induction tokens generalizing s with
  | nil => exact refl s
  | cons t ts ih => exact (emit s _).trans (ih _)

end State.SamePlace

theorem samePlace_flush {f : Frame} {s s₁ : State} (h : flush f s = .ok s₁) : s.SamePlace s₁ := by
  unfold flush at h
  split at h
  next => cases h
  next tokens _ =>
    obtain rfl := Except.ok.inj h
    exact .emitTokens s tokens

theorem samePlace_spliceIn {env : Settings} {f : Frame} {position : Source.Position} {path : String}
    {s s' : State} (h : spliceIn env f position path s = .ok (.proceed s')) : s.SamePlace s' := by
  cases splicesIn_of_spliceIn h with
  | passedOver => exact ⟨rfl, rfl⟩

theorem samePlace_obey {env : Settings} {f : Frame} {origin : Origin} {s s' : State} {d : Directive}
    (h : obey env f origin s d = .ok (.proceed s')) : s.SamePlace s' := by
  cases d with
  | define name params body =>
    cases hd : readDefinition name params body with
    | error cause => simp [obey, hd, Except.map] at h
    | ok d =>
      simp only [obey, hd, Except.map, Except.ok.injEq, Effect.proceed.injEq] at h
      exact h ▸ .define s env _ d
  | splice path => exact samePlace_spliceIn h
  | undefine | openGroup | elseIf | otherwise | endGroup | stop | once | passThrough | nothing =>
    simp only [obey] at h
    repeat' split at h
    all_goals cases h
    all_goals exact ⟨rfl, rfl⟩

theorem samePlace_handle {env : Settings} {f : Frame} {origin : Origin} {line : String}
    {s s' : State} (h : handle env f origin line s = .ok (.proceed s')) : s.SamePlace s' := by
  unfold handle at h
  simp only at h
  split at h
  next =>
    cases h
    exact .refl s
  next =>
    split at h
    next =>
      cases h
      exact ⟨rfl, rfl⟩
    next =>
      split at h
      next => cases h
      next => exact samePlace_obey h

/-! ## A step makes progress -/

/-- The frame after a step goes on with the same unit, and less text of it is left. -/
structure Frame.After (f f' : Frame) : Prop where
  unit : f'.unit = f.unit
  name : f'.name = f.name
  directory : f'.directory = f.directory
  depth : f'.depth = f.depth
  shorter : f'.cursor.rest.length < f.cursor.rest.length

/-- A directive that leads to a text asks for it. -/
theorem spliceIn_of_obey {env : Settings} {f : Frame} {origin : Origin} {s : State} {d : Directive}
    {i : Inclusion} (h : obey env f origin s d = .ok (.splice i)) :
    ∃ path, spliceIn env f (s.position origin) path s = .ok (.splice i) := by
  cases d with
  | define name params body =>
    cases hd : readDefinition name params body <;> simp [obey, hd, Except.map] at h
  | splice path => exact ⟨path, h⟩
  | undefine | openGroup | elseIf | otherwise | endGroup | stop | once | passThrough | nothing =>
    simp only [obey] at h
    repeat' split at h
    all_goals simp at h

/-- A line that leads to a text asks for it. -/
theorem spliceIn_of_handle {env : Settings} {f : Frame} {origin : Origin} {line : String} {s : State}
    {i : Inclusion} (h : handle env f origin line s = .ok (.splice i)) :
    ∃ path, spliceIn env f (s.position origin) path s = .ok (.splice i) := by
  unfold handle at h
  simp only at h
  split at h
  next => simp at h
  next =>
    split at h
    next => simp at h
    next =>
      split at h
      next => simp at h
      next => exact spliceIn_of_obey h

theorem AtDirective.after {f : Frame} {s s₁ : State} {line : Directive.Line} {after : Cursor}
    (h : AtDirective f s s₁ line after) : f.After (f.afterLine after) := by
  obtain ⟨l, c, hn, _, hr⟩ := h.hash
  exact ⟨rfl, rfl, rfl, rfl,
    Nat.lt_of_le_of_lt (Directive.readLine_rest_le hr) (Cursor.next_rest_lt hn)⟩

theorem AtLexeme.after {f : Frame} {s : State} {l : Lexeme} {c : Cursor} (h : AtLexeme f s l c) :
    f.After (f.afterLexeme l c) := ⟨rfl, rfl, rfl, rfl, Cursor.next_rest_lt h.next⟩

/-- **A step that goes on leaves less text of the unit**, on the same chain. -/
theorem step_next {env : Settings} {f f' : Frame} {s s' : State}
    (h : step env f s = (.next f', s')) : f.After f' ∧ s.SamePlace s' := by
  cases step_cases h with
  | directive reads handle =>
    exact ⟨reads.after, ((samePlace_flush reads.flush).trans (samePlace_handle handle)).trans
      (.emitLineEnds _ _ _)⟩
  | token reads => exact ⟨⟨rfl, rfl, rfl, rfl, reads.after.shorter⟩, .refl s⟩
  | skippedLineEnd reads => exact ⟨reads.after, .emit s _⟩
  | skipped reads => exact ⟨reads.after, .refl s⟩

/-- A step that asks for a text leaves less text of the unit, and the text is new to the chain. -/
theorem step_splice {env : Settings} {f f' : Frame} {s s' : State} {i : Inclusion} {ends : List Nat}
    (h : step env f s = (.splice i ends f', s')) :
    f.After f' ∧ s.SamePlace s' ∧ i.Fresh env s' := by
  cases step_cases h with
  | splice reads handle =>
    obtain ⟨path, splices⟩ := spliceIn_of_handle handle
    cases splicesIn_of_spliceIn splices with
    | splice fresh => exact ⟨reads.after, samePlace_flush reads.flush, fresh⟩

/-- A step that ends a unit leaves it. -/
theorem step_finished {env : Settings} {f : Frame} {s s' : State}
    (h : step env f s = (.finished, s')) : s'.units = s.units ∧ s'.chain = s.chain.tail := by
  cases step_cases h with
  | finish _ flush =>
    have same := samePlace_flush flush
    exact ⟨same.units, congrArg List.tail same.chain⟩

end ShaderPass.Preprocess
