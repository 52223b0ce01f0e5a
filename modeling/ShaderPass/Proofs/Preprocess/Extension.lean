import ShaderPass.Proofs.Lexeme.Extension
import ShaderPass.Proofs.Preprocess.Step
import ShaderPass.Proofs.Source.LineStarts

/-!
# Proofs/Preprocess/Extension — a step does the same in a longer text

    f, s                        ──step──▸  f', s'
    f.extend more, s.withRoot u ──step──▸  f'.extend more, s'.withRoot u

A frame **extends** to one with more text after what is left, and a state to one that has read another
text as its first unit.  Where the text that is left ends its line, a step that goes on does the same
in both (`step_extend_next`, `step_extend_splice`), as long as positions are the same; and they are up
to the end of the shorter text (`Source.position_append`).
-/

namespace ShaderPass

namespace Source

variable {units : Array Unit} {u v w : Unit}

/-! ## Positions in a longer text -/

/-- Text that comes later does not move a line or column. -/
theorem lineColumnFrom_append (more : List Char) : ∀ (cs : List Char) (line column lineBytes : Nat)
    {offset : Nat}, offset ≤ Text.byteLength cs →
    lineColumnFrom line column lineBytes (cs ++ more) offset =
      lineColumnFrom line column lineBytes cs offset := by
  intro cs
  induction cs with
  | nil =>
    intro line column lineBytes offset h
    obtain rfl : offset = 0 := Nat.le_zero.1 h
    cases more <;> rfl
  | cons c cs ih =>
    intro line column lineBytes offset h
    rw [Text.byteLength] at h
    rw [List.cons_append, lineColumnFrom, lineColumnFrom, ih _ _ _ (by omega), ih _ _ _ (by omega)]

/-- **Up to the end of a text, the positions in a longer one are the same.** -/
theorem position_append (name text more : String) {offset : Nat} (h : offset ≤ text.utf8ByteSize) :
    (Unit.mk name (text ++ more)).position offset = (Unit.mk name text).position offset := by
  have hle : offset ≤ Text.byteLength text.toList := by
    rwa [← Text.utf8ByteSize_ofList, String.ofList_toList]
  simp only [Unit.position, lineColumn_eq, String.toList_append,
    lineColumnFrom_append more.toList text.toList 1 1 0 hle]

/-! ## Units with another first one -/

/-- Some units with another one in the place of the first. -/
def withRoot (units : Array Unit) (u : Unit) : Array Unit := units.setIfInBounds 0 u

/-- Only the first unit is another one. -/
theorem getElem?_withRoot (h : units[0]? = some v) (u : Unit) (k : Nat) :
    (withRoot units u)[k]? = if k = 0 then some u else units[k]? := by
  have hsize : 0 < units.size := (Array.getElem?_eq_some_iff.1 h).1
  rw [withRoot, Array.getElem?_setIfInBounds]
  split
  next h0 => rw [if_pos h0.symm]
  next h0 => rw [if_neg (Ne.symm h0)]

/-- A unit that is neither of the first ones is added to both in the same way. -/
theorem addUnit_withRoot (h : units[0]? = some v) (hv : v ≠ w) (hu : u ≠ w) :
    addUnit (withRoot units u) w = ((addUnit units w).1, withRoot (addUnit units w).2 u) := by
  obtain ⟨us⟩ := units
  cases us with
  | nil => simp at h
  | cons x us =>
    obtain rfl : x = v := by simpa using h
    have hx : (x == w) = false := beq_false_of_ne hv
    have hu : (u == w) = false := beq_false_of_ne hu
    cases hus : us.idxOf? w with
    | none => simp [addUnit, withRoot, List.idxOf?_cons, hx, hu, hus]
    | some k => simp [addUnit, withRoot, List.idxOf?_cons, hx, hu, hus]

end Source

namespace Preprocess

open Lexeme (Cursor EndsLine)
open Macro (Token Origin)

variable {env : Settings} {f f' : Frame} {s s₁ s' : State} {u : Source.Unit} {more : List Char}

/-! ## States with another text of the root -/

/-- A state that has read another text as its first unit. -/
def State.withRoot (s : State) (u : Source.Unit) : State :=
  { s with units := Source.withRoot s.units u }

@[simp] theorem State.macros_withRoot (s : State) (u : Source.Unit) :
    (s.withRoot u).macros = s.macros := rfl

@[simp] theorem State.isActive_withRoot (s : State) (u : Source.Unit) :
    (s.withRoot u).isActive = s.isActive := rfl

@[simp] theorem State.groupAbove?_withRoot (s : State) (u : Source.Unit) (depth : Nat) :
    (s.withRoot u).groupAbove? depth = s.groupAbove? depth := rfl

theorem State.emitLineEnds_withRoot (s : State) (u : Source.Unit) (unit : Nat) (ends : List Nat) :
    (s.withRoot u).emitLineEnds unit ends = (s.emitLineEnds unit ends).withRoot u := by
  unfold State.emitLineEnds
  induction ends generalizing s with
  | nil => rfl
  | cons o os ih => exact ih (s.emitLineEnd unit o)

theorem State.emitTokens_withRoot (s : State) (u : Source.Unit) (tokens : List Token) :
    tokens.foldl State.emitToken (s.withRoot u) = (tokens.foldl State.emitToken s).withRoot u := by
  induction tokens generalizing s with
  | nil => rfl
  | cons t ts ih => exact ih (s.emitToken t)

/-- A frame in a longer text. -/
def Frame.extend (f : Frame) (more : List Char) : Frame :=
  { f with cursor := f.cursor.extend more }

/-- Tokens that wait are put out alike, whatever text comes later. -/
theorem flush_extend (h : flush f s = .ok s₁) (more : List Char) (u : Source.Unit) :
    flush (f.extend more) (s.withRoot u) = .ok (s₁.withRoot u) := by
  unfold flush at h ⊢
  simp only [Frame.extend, State.withRoot] at h ⊢
  split at h
  next => cases h
  next tokens hexpand =>
    obtain rfl := Except.ok.inj h
    exact congrArg Except.ok (s.emitTokens_withRoot u tokens)

/-! ## Directives -/

/-- An effect on a state that has read another text as its first unit. -/
def Effect.withRoot (u : Source.Unit) : Effect → Effect
  | .proceed s => .proceed (s.withRoot u)
  | .splice i => .splice i

theorem State.define_withRoot (s : State) (u : Source.Unit) (env : Settings)
    (position : Source.Position) (d : Macro.Definition) :
    (s.withRoot u).define env position d = (s.define env position d).withRoot u := by
  by_cases h : s.macros.isDefined d.name = true ∧ d.name ∈ env.predefined
  · rw [State.define.eq_def s, if_pos h]
    exact if_pos h
  · rw [State.define.eq_def s, if_neg h]
    exact if_neg h

theorem spliceIn_withRoot (position : Source.Position) (path : String) :
    spliceIn env f position path (s.withRoot u) =
      (spliceIn env f position path s).map (Effect.withRoot u) := by
  unfold spliceIn
  cases env.library.resolve? f.directory env.basePath path with
  | none => rfl
  | some resolved =>
    by_cases hchain : resolved ∈ s.chain
    · simp only [if_pos hchain]
      exact if_pos hchain
    · by_cases hmarked : resolved ∈ s.marked
      · simp only [if_neg hchain, if_pos hmarked]
        exact (if_neg hchain).trans (if_pos hmarked)
      · simp only [if_neg hchain, if_neg hmarked]
        exact (if_neg hchain).trans (if_neg hmarked)

/-- **A directive does the same whatever the text of the first unit is**, where its position is. -/
theorem obey_withRoot {origin : Origin} (h : (s.withRoot u).position origin = s.position origin)
    (d : Directive) :
    obey env f origin (s.withRoot u) d = (obey env f origin s d).map (Effect.withRoot u) := by
  cases d with
  | define name params body =>
    simp only [obey, h, State.define_withRoot]
    cases readDefinition name params body <;> rfl
  | openGroup guard =>
    simp only [obey, h, State.macros_withRoot]
    cases guardHolds s.macros origin guard <;> rfl
  | elseIf text =>
    simp only [obey, State.macros_withRoot, State.groupAbove?_withRoot]
    split
    next => rfl
    next g _ =>
      split
      next => rfl
      next =>
        split
        next => cases conditionHolds s.macros origin text <;> rfl
        next => rfl
  | otherwise =>
    simp only [obey, State.groupAbove?_withRoot]
    split
    next => rfl
    next => split <;> rfl
  | endGroup =>
    simp only [obey, State.groupAbove?_withRoot]
    split <;> rfl
  | splice path =>
    simp only [obey, h]
    exact spliceIn_withRoot _ _
  | undefine | stop | once | passThrough | nothing => rfl

/-- **A directive has the same effect**, whatever text the root has behind it. -/
theorem handle_withRoot {origin : Origin} (h : (s.withRoot u).position origin = s.position origin)
    (line : String) : handle env f origin line (s.withRoot u) =
      (handle env f origin line s).map (Effect.withRoot u) := by
  simp only [handle, h, State.isActive_withRoot]
  split
  next => rfl
  next =>
    split
    next => rfl
    next =>
      split
      next => rfl
      next => exact obey_withRoot h _

/-! ## One step -/

/-- A directive line that has ended is the same before more text. -/
theorem AtDirective.extend {line : Directive.Line} {after : Cursor}
    (hread : more = [] ∨ EndsLine f.cursor.rest) (h : AtDirective f s s₁ line after)
    (u : Source.Unit) :
    AtDirective (f.extend more) (s.withRoot u) (s₁.withRoot u) line (after.extend more) := by
  obtain ⟨l, c, hnext, hhash, hline⟩ := h.hash
  have hc : more = [] ∨ EndsLine c.rest := by
    refine hread.imp_right fun hends => ?_
    have reads := Cursor.reads_of_next hnext
    have hkind : l.kind ≠ .newline := by
      rw [Lexeme.isPunct, Bool.and_eq_true, beq_iff_eq] at hhash
      exact hhash.1 ▸ Kind.noConfusion
    exact hends.suffix (Cursor.suffix_of_reads reads) (Cursor.rest_ne_nil_of_reads hends reads hkind)
  exact ⟨h.atLineStart, ⟨l, c.extend more, Cursor.next_extend hread hnext, hhash,
    Cursor.readLine_extend hc hline⟩, flush_extend h.flush more u⟩

theorem AtDirective.handle_extend {line : Directive.Line} {after : Cursor} {effect : Effect}
    (h : AtDirective f s s₁ line after)
    (hposition : (s.withRoot u).position f.origin = s.position f.origin) (more : List Char)
    (handle : handle env f f.origin line.text s₁ = .ok effect) :
    Preprocess.handle env (f.extend more) (f.extend more).origin line.text (s₁.withRoot u) =
      .ok (effect.withRoot u) := by
  have hposition₁ : (s₁.withRoot u).position f.origin = s₁.position f.origin := by
    rw [flush_eq h.flush]
    exact hposition
  have same : Preprocess.handle env (f.extend more) f.origin line.text s₁ = .ok effect := handle
  exact (handle_withRoot hposition₁ line.text).trans (congrArg (Except.map _) same)

/-- A lexeme that has ended is the same before more text. -/
theorem AtLexeme.extend {l : Lexeme} {c : Cursor} (hread : more = [] ∨ EndsLine f.cursor.rest)
    (h : AtLexeme f s l c) (u : Source.Unit) :
    AtLexeme (f.extend more) (s.withRoot u) l (c.extend more) :=
  ⟨Cursor.next_extend hread h.next, h.noHash⟩

/-- **A step that goes on does so in a longer text**, where the text ends its line. -/
theorem step_extend_next (hread : more = [] ∨ EndsLine f.cursor.rest)
    (hposition : (s.withRoot u).position f.origin = s.position f.origin)
    (h : step env f s = (.next f', s')) :
    step env (f.extend more) (s.withRoot u) = (.next (f'.extend more), s'.withRoot u) := by
  cases step_cases h with
  | @directive s₁ s₂ line after reads handle =>
    have handle' := reads.handle_extend hposition more handle
    rw [step_of_atDirective (reads.extend hread u), handle']
    exact congrArg _ (s₂.emitLineEnds_withRoot u f.unit line.lineEnds)
  | token reads active =>
    rw [step_of_atLexeme (reads.extend hread u), stepLexeme, State.isActive_withRoot, if_pos active]
    rfl
  | skippedLineEnd reads inactive newline =>
    rw [step_of_atLexeme (reads.extend hread u), stepLexeme, State.isActive_withRoot, inactive,
      if_neg Bool.false_ne_true, if_pos newline]
    rfl
  | skipped reads inactive noNewline =>
    rw [step_of_atLexeme (reads.extend hread u), stepLexeme, State.isActive_withRoot, inactive,
      if_neg Bool.false_ne_true, if_neg noNewline]
    rfl

/-- **A step that asks for a text does so in a longer one.** -/
theorem step_extend_splice {i : Inclusion} {ends : List Nat}
    (hread : more = [] ∨ EndsLine f.cursor.rest)
    (hposition : (s.withRoot u).position f.origin = s.position f.origin)
    (h : step env f s = (.splice i ends f', s')) :
    step env (f.extend more) (s.withRoot u) = (.splice i ends (f'.extend more), s'.withRoot u) := by
  cases step_cases h with
  | splice reads handle =>
    rw [step_of_atDirective (reads.extend hread u), reads.handle_extend hposition more handle]
    rfl

/-- The end of a unit is the same whatever the text of the first unit is. -/
theorem step_withRoot_finished (h : step env f s = (.finished, s')) (u : Source.Unit) :
    step env f (s.withRoot u) = (.finished, s'.withRoot u) := by
  cases step_cases h with
  | @finish s₁ atEnd flush closed =>
    have next : f.cursor.next (s.withRoot u).mode = .ok none := atEnd
    have flush' : Preprocess.flush f (s.withRoot u) = .ok (s₁.withRoot u) := by
      have := flush_extend flush [] u
      rwa [Frame.extend, Cursor.extend_nil] at this
    have closed' : (s₁.withRoot u).outermostAbove? f.depth = none := closed
    simp only [step, next, stepEnd, flush', closed']
    rfl

end Preprocess

end ShaderPass
