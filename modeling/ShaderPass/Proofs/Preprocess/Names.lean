import ShaderPass.Proofs.Directive.Words
import ShaderPass.Proofs.Preprocess.Nesting

/-!
# Proofs/Preprocess/Names — a unit has one name in all that it is known by

    lib/b.glsl:  #include "a.glsl"  ──▸  lib/a.glsl
                                           chain       lib/a.glsl, lib/b.glsl, shader
                                           units       lib/a.glsl with its text
                                           directory   lib
                                           #pragma once marks lib/a.glsl

A text that is spliced in is known by the path that it was found under and by nothing else: that path
is on the chain, in the unit that its places are in, and among the marked ones where the text asks for
it; and its parent is the directory that further paths are read from.  All points of the unit have this
in common (`reads_of_reached`).  A step marks a name just where the unit of this name obeys a
`#pragma once` (`mem_marked_of_step`), so nothing but names of units is ever marked
(`marked_of_reached`).
-/

namespace ShaderPass.Preprocess

open Lexeme (Cursor)
open Directive (parse? wordOf groupWords)

variable {env : Settings} {f : Frame} {s s₁ s' t : State} {o : Outcome} {x y root : Point}
  {u : Source.Unit} {directory : String} {Known : String → Prop} {line : Directive.Line}
  {after : Cursor} {path : String} {rest : List Char}

/-! ## The unit of a point -/

/-- A point **reads** a unit, with paths read from a directory: the unit's name is that of the frame,
and the innermost on the chain, and the places of the frame are in the unit. -/
structure Point.Reads (x : Point) (u : Source.Unit) (directory : String) : Prop where
  name : x.frame.name = u.name
  chain : x.state.chain.head? = some u.name
  unit : x.state.units[x.frame.unit]? = some u
  directory : x.frame.directory = directory

/-- The position of the cursor is in the unit that is read. -/
theorem Point.Reads.position (h : x.Reads u directory) :
    x.state.position x.frame.origin = u.position x.frame.cursor.location.offset := by
  have unit : x.state.units[x.frame.origin.unit]? = some u := h.unit
  rw [State.position, Source.positionIn, unit]
  rfl

theorem reads_entry (s : State) (i : Inclusion) :
    (s.entry i).Reads ⟨i.path, i.text⟩ (VirtualPath.parent i.path) :=
  ⟨rfl, rfl, (placed_entry s i).unit, rfl⟩

theorem directory_of_advances (h : Advances env x y) : y.frame.directory = x.frame.directory := by
  cases h with
  | next step => exact (step_next step).1.directory
  | splice step => exact (step_splice step).1.directory

/-- **A point and those that it advances to read the same unit**, whatever is spliced in between. -/
theorem Point.Reads.advances (h : x.Reads u directory) (placed : x.frame.Placed x.state u.text)
    (hxy : Advances env x y) : y.Reads u directory := by
  obtain ⟨unit, name, chain⟩ := same_of_advances hxy
  have grows := (placed_advances hxy placed).2
  exact ⟨name.trans h.name, chain ▸ h.chain, unit ▸ grows.unit h.unit,
    (directory_of_advances hxy).trans h.directory⟩

/-- **Every point that is reached reads the unit of the root, or a text of the library under its
path.** -/
theorem reads_of_reached (hroot : root.Reads u directory)
    (placed : root.frame.Placed root.state u.text) (h : Reached env root x) :
    x.Reads u directory ∨ ∃ path text, env.library.text? path = some text ∧
      x.Reads ⟨path, text⟩ (VirtualPath.parent path) := by
  let P (x : Point) := ∃ v d, x.frame.Placed x.state v.text ∧ x.Reads v d ∧
    ((v = u ∧ d = directory) ∨
      env.library.text? v.name = some v.text ∧ d = VirtualPath.parent v.name)
  have advances : ∀ {x y}, P x → Advances env x y → P y := by
    rintro x y ⟨v, d, hplaced, hreads, known⟩ hxy
    exact ⟨v, d, (placed_advances hxy hplaced).1, hreads.advances hplaced hxy, known⟩
  obtain ⟨v, d, -, reads, ⟨rfl, rfl⟩ | ⟨text, rfl⟩⟩ : P x := by
    refine h.induct (P := P) ⟨u, directory, placed, hroot, .inl ⟨rfl, rfl⟩⟩ fun x y hx hxy => ?_
    cases hxy with
    | next step => exact advances hx (.next step)
    | enter step =>
      have fresh := (step_splice step).2.2
      exact ⟨_, _, placed_entry _ _, reads_entry _ _, .inr ⟨fresh.text, rfl⟩⟩
    | resume step run => exact advances hx (.splice step run)
  · exact .inl reads
  · exact .inr ⟨v.name, v.text, text, reads⟩

/-! ## The names that are marked -/

/-- A directive that counts marks the name of its unit just where it asks for that. -/
theorem marked_of_obeys {origin : Macro.Origin} {d : Directive} (h : Obeys env f origin s d s') :
    s'.marked = s.marked ∨ (d = .once ∧ s'.marked = f.name :: s.marked) := by
  cases h with
  | define =>
    refine .inl ?_
    unfold State.define
    split <;> rfl
  | once => exact .inr ⟨rfl, rfl⟩
  | undefine | openGroup | elseIf | otherwise | endGroup | notSpliced | passThrough | nothing =>
    exact .inl rfl

theorem State.marked_emitLineEnds (s : State) (unit : Nat) (ends : List Nat) :
    (s.emitLineEnds unit ends).marked = s.marked := by rw [s.emitLineEnds_eq]

theorem marked_flush (h : flush f s = .ok s₁) : s₁.marked = s.marked := by rw [flush_eq h]

/-- **The step over a directive that asks for a text to be spliced in once** marks the name of the
unit. -/
theorem step_of_once (reads : AtDirective f s s₁ line after) (active : s.isActive = true)
    (parses : parse? line.text = some (.once, rest)) :
    ∃ s', step env f s = (.next (f.afterLine after), s') ∧ s'.marked = f.name :: s.marked := by
  have active₁ := (isActive_flush reads.flush).trans active
  refine ⟨_, by rw [step_of_atDirective reads, handle_of_parse? active₁ parses, obey], ?_⟩
  rw [State.marked_emitLineEnds, ← marked_flush reads.flush]

/-- The step at a point is over a `#pragma once`, in text that is emitted or not. -/
def Point.AtOnce (x : Point) : Prop :=
  ∃ s line after rest, AtDirective x.frame x.state s line after ∧
    parse? line.text = some (.once, rest)

/-- A point **marks** a name: a unit of this name obeys a `#pragma once` at it. -/
structure Point.Marks (x : Point) (name : String) : Prop where
  name : x.frame.name = name
  active : x.state.isActive = true
  atOnce : x.AtOnce

/-- A line marks nothing where it is skipped, or is no `#pragma once`. -/
theorem marked_of_handle {origin : Macro.Origin} {line : String}
    (h : handle env f origin line s = .ok (.proceed s'))
    (hline : s.isActive = true → ∀ rest, parse? line ≠ some (.once, rest)) :
    s'.marked = s.marked := by
  cases handles_of_handle h with
  | skipped | opensSkipped => rfl
  | obeys reads parses obeys =>
    rcases marked_of_obeys obeys with same | ⟨rfl, -⟩
    · exact same
    · -- `Handles` does not say that the text is emitted: in skipped text the line is passed over unread
      have inactive : s.isActive = false := Bool.eq_false_iff.2 fun active => hline active _ parses
      have word : wordOf line ∉ groupWords := by
        rw [List.mem_singleton.1 (Directive.wordOf_mem_spellings parses)]
        decide
      rw [handle, if_pos ⟨inactive, word⟩] at h
      cases h
      rfl

/-- **A step marks a name just where the unit of this name obeys a `#pragma once`.** -/
theorem mem_marked_of_step (h : x.step env = (o, s')) (name : String) :
    name ∈ s'.marked ↔ name ∈ x.state.marked ∨ x.Marks name := by
  by_cases once : x.state.isActive = true ∧ x.AtOnce
  · obtain ⟨active, s, line, after, rest, reads, parses⟩ := once
    have steps : ∃ s'', x.step env = (.next (x.frame.afterLine after), s'') ∧
      s''.marked = x.frame.name :: x.state.marked := step_of_once reads active parses
    obtain ⟨s'', step, marked⟩ := steps
    obtain ⟨-, rfl⟩ := Prod.mk.inj (h.symm.trans step)
    rw [marked, List.mem_cons, or_comm, eq_comm]
    exact or_congr_right ⟨fun hname => ⟨hname, active, s, line, after, rest, reads, parses⟩,
      Point.Marks.name⟩
  · have same : s'.marked = x.state.marked := by
      cases step_cases h with
      | failed | token | skippedLineEnd | skipped => rfl
      | failedAfter flush => exact marked_flush flush
      | unterminated flush =>
        have marked := marked_flush flush
        exact marked
      | finish _ flush =>
        have marked := marked_flush flush
        exact marked
      | splice reads => exact marked_flush reads.flush
      | directive reads handle =>
        rw [State.marked_emitLineEnds, ← marked_flush reads.flush]
        refine marked_of_handle handle fun active rest parses => once ⟨?_, ?_⟩
        · exact (isActive_flush reads.flush).symm.trans active
        · exact ⟨_, _, _, rest, reads, parses⟩
    rw [same]
    exact (or_iff_left fun marks => once ⟨marks.active, marks.atOnce⟩).symm

theorem forall_marked_of_step (h : x.step env = (o, s')) (hname : Known x.frame.name)
    (hx : ∀ name ∈ x.state.marked, Known name) : ∀ name ∈ s'.marked, Known name := by
  intro name marked
  rcases (mem_marked_of_step h name).1 marked with before | marks
  · exact hx name before
  · exact marks.name ▸ hname

/-- What is spliced in marks paths of texts at most. -/
theorem forall_marked_of_runs (hlib : ∀ path, env.library.contains path = true → Known path)
    (h : Runs env x t) (hname : Known x.frame.name) (hx : ∀ name ∈ x.state.marked, Known name) :
    ∀ name ∈ t.marked, Known name := by
  induction h with
  | finish step => exact forall_marked_of_step step hname hx
  | next step _ ih =>
    exact ih ((step_next step).1.name ▸ hname) (forall_marked_of_step step hname hx)
  | @splice x f' s' s'' t i ends step _ _ ih ih' =>
    obtain ⟨after, -, fresh⟩ := step_splice step
    have marked := forall_marked_of_step step hname hx
    have spliced := ih (hlib _ fresh.contains) marked
    exact ih' (after.name ▸ hname) ((s''.marked_emitLineEnds x.frame.unit ends).symm ▸ spliced)

/-- **Nothing is marked but names of units**: that of the root, and paths of texts. -/
theorem marked_of_reached (hroot : Known root.frame.name)
    (hmarked : ∀ name ∈ root.state.marked, Known name)
    (hlib : ∀ path, env.library.contains path = true → Known path) (h : Reached env root x) :
    ∀ name ∈ x.state.marked, Known name := by
  let P (x : Point) := Known x.frame.name ∧ ∀ name ∈ x.state.marked, Known name
  refine (h.induct (P := P) ⟨hroot, hmarked⟩ ?_).2
  rintro x y ⟨hname, hx⟩ hxy
  cases hxy with
  | next step => exact ⟨(step_next step).1.name ▸ hname, forall_marked_of_step step hname hx⟩
  | enter step =>
    have marked := forall_marked_of_step step hname hx
    exact ⟨hlib _ (step_splice step).2.2.contains, marked⟩
  | @resume f' s' s'' i ends step run =>
    obtain ⟨after, -, fresh⟩ := step_splice step
    have marked := forall_marked_of_step step hname hx
    have spliced := forall_marked_of_runs hlib (runs_iff.2 run) (hlib _ fresh.contains) marked
    exact ⟨after.name ▸ hname, (s''.marked_emitLineEnds x.frame.unit ends).symm ▸ spliced⟩

/-! ## Directives that ask for a text that there is not -/

/-- **The step over a directive that asks for a text that there is not.** -/
theorem step_of_unresolved (reads : AtDirective f s s₁ line after) (active : s.isActive = true)
    (parses : parse? line.text = some (.splice path, rest))
    (unresolved : env.library.resolve? f.directory env.basePath path = none) :
    step env f s = (.failed ⟨.unresolved path, s.position f.origin⟩, s₁) := by
  have active₁ := (isActive_flush reads.flush).trans active
  have position : s₁.position f.origin = s.position f.origin := by
    rw [flush_eq reads.flush]
    rfl
  rw [step_of_atDirective reads, handle_of_parse? active₁ parses, obey, spliceIn, unresolved, position]

end ShaderPass.Preprocess
