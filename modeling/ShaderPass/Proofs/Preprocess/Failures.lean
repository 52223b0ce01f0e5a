import ShaderPass.Proofs.Macro.Lexemes
import ShaderPass.Proofs.Macro.Termination
import ShaderPass.Proofs.Preprocess.Balance
import ShaderPass.Proofs.Preprocess.Places
import ShaderPass.Proofs.Source.Lines

/-!
# Proofs/Preprocess/Failures — where preprocessing fails

    root ⋯──▸ x ──step──▸ failed e         e.position   where the cursor of x is
                                                        where a token waits at x
                                                        where the directive line cannot be read
                                                        where a group was opened

A position is **genuine** when it is that of an offset of a unit that can be read: of the source, or
of a text of the library.  A run that fails does so at a point that it reaches
(`exists_step_of_fails`), where the cursor, the tokens that wait and the open groups all have places
in units that have been read (`Point.Sound`); and what a step points to is one of these places
(`failsAt_of_failed`).  Where a source is accepted, the source map of its output says genuine
positions too, of every index, unless the output is empty (`Session.genuine_of_sourceMap`).
-/

namespace ShaderPass

namespace Source

/-- Whether a position is **genuine**: it is that of an offset of a text that is known, or of its
end. -/
def Genuine (Known : Unit → Prop) (position : Position) : Prop :=
  ∃ u, Known u ∧ ∃ offset ≤ u.text.utf8ByteSize, position = u.position offset

/-- A genuine position has a line. -/
theorem Genuine.one_le_line {Known : Unit → Prop} {position : Position}
    (h : Genuine Known position) : 1 ≤ position.line := by
  obtain ⟨u, -, offset, -, rfl⟩ := h
  rw [line_position]
  exact Nat.le_add_right _ _

/-- A unit that is known after another is added is the one added or was known before. -/
theorem mem_addUnit {units : Array Unit} {u v : Unit} (h : v ∈ (addUnit units u).2) :
    v ∈ units ∨ v = u := by
  unfold addUnit at h
  split at h
  next => exact .inl h
  next => exact Array.mem_push.1 h

end Source

/-! ## Faults of an expansion -/

namespace Macro

variable {table : Table} {t : Token} {ts queue new rest : List Token} {d : Definition}
  {P : Origin → Prop} {fault : Fault × Origin}

theorem origin_inLine (t : Token) : t.inLine.origin = t.origin := by
  unfold Token.inLine
  split <;> rfl

theorem forall_origin_arguments {inside tail : List Token} {args : List (List Token)}
    (hts : ∀ u ∈ ts, P u.origin) (opening : afterOpening ts = some inside)
    (closing : arguments inside = some (args, tail)) :
    (∀ a ∈ args, ∀ u ∈ a, P u.origin) ∧ ∀ u ∈ tail, P u.origin :=
  forall_arguments (Q := fun u => P u.origin) (fun u hu => (origin_inLine u).symm ▸ hu) hts opening
    closing

theorem origin_of_replaces (h : Replaces table t ts d new rest) (ht : P t.origin)
    (hts : ∀ u ∈ ts, P u.origin) : ∀ u ∈ new ++ rest, P u.origin := by
  cases h with
  | object names _ =>
    exact List.forall_mem_append.2 ⟨fun u hu => (place_substitute hu).1 ▸ ht, hts⟩
  | call names opening closing _ _ _ =>
    exact List.forall_mem_append.2 ⟨fun u hu => (place_substitute hu).1 ▸ ht,
      (forall_origin_arguments hts opening closing).2⟩

/-- **An expansion that fails does so at the place of one of the tokens to be expanded.** -/
theorem origin_of_faults (h : Faults table queue fault) (hq : ∀ u ∈ queue, P u.origin) :
    P fault.2 := by
  induction h with
  | keep _ _ ih => exact ih (List.forall_mem_cons.1 hq).2
  | replace replaces _ ih =>
    obtain ⟨ht, hts⟩ := List.forall_mem_cons.1 hq
    exact ih (origin_of_replaces replaces ht hts)
  | unterminated | arity => exact (List.forall_mem_cons.1 hq).1
  | argument _ opening closing _ _ at_ _ ih =>
    obtain ⟨-, hts⟩ := List.forall_mem_cons.1 hq
    have mem := mem_given (List.mem_of_getElem? at_)
    exact ih ((forall_origin_arguments hts opening closing).1 _ mem)

end Macro

namespace Preprocess

open Lexeme (Cursor)
open Macro (Token Origin)
open Source (Genuine Piece)

variable {env : Settings} {f : Frame} {s s₁ s' t : State} {x y root : Point} {e : Error}
  {Known : Source.Unit → Prop} {text : String}

/-! ## What a failure points to -/

/-- What the failure of a step points to: the place of the cursor, that of a token that waits, the
place at which the directive line cannot be read, or the one where an open group was opened. -/
inductive FailsAt (f : Frame) (s : State) : Source.Position → Prop
  | here : FailsAt f s (s.position f.origin)
  | waiting {t : Token} (waits : t ∈ f.waiting) : FailsAt f s (s.position t.origin)
  | line {l : Lexeme} {c : Cursor} {fault : Lexeme.Fault} {location : Location}
      (next : f.cursor.next s.mode = .ok (some (l, c)))
      (read : Directive.readLine c = .error (fault, location)) :
      FailsAt f s (s.position ⟨f.unit, location.offset⟩)
  | group {g : Group} (mem : g ∈ s.groups) : FailsAt f s g.openedAt

theorem position_flush (h : flush f s = .ok s₁) (o : Origin) : s₁.position o = s.position o := by
  rw [flush_eq h]
  rfl

theorem failsAt_of_flush_error (h : flush f s = .error e) : FailsAt f s e.position := by
  unfold flush at h
  split at h
  next fault origin hexpand =>
    obtain rfl := Except.error.inj h
    refine Macro.origin_of_faults (P := fun o => FailsAt f s (s.position o))
      (Macro.faults_of_expand hexpand) fun t ht => .waiting (List.mem_reverse.1 ht)
  next => cases h

/-- **A step that fails points to one of these places.** -/
theorem failsAt_of_failed (h : step env f s = (.failed e, s')) : FailsAt f s e.position := by
  cases stepFails_of_step h with
  | lexeme => exact .here
  | flush flush => exact failsAt_of_flush_error flush
  | line next flush read => exact position_flush flush _ ▸ .line next read
  | handle reads => exact position_flush reads.flush _ ▸ .here
  | unterminated _ flush isOpen =>
    have mem := List.mem_reverse.1 (List.mem_of_getElem? isOpen)
    exact .group (groups_flush flush ▸ mem)

/-! ## Points with places in units that are known -/

/-- A point is **sound** when it is placed in a text, all units that have been read are known, and
the open groups were opened at genuine positions. -/
structure Point.Sound (Known : Source.Unit → Prop) (x : Point) : Prop where
  placed : ∃ text, x.frame.Placed x.state text
  units : ∀ u ∈ x.state.units, Known u
  groups : ∀ g ∈ x.state.groups, Genuine Known g.openedAt

/-- An offset of the unit being read has a genuine position. -/
theorem Frame.Placed.genuine (hf : f.Placed s text) (hunits : ∀ u ∈ s.units, Known u) {offset : Nat}
    (ho : offset ≤ text.utf8ByteSize) : Genuine Known (s.position ⟨f.unit, offset⟩) := by
  refine ⟨⟨f.name, text⟩, hunits _ (Array.mem_of_getElem? hf.unit), offset, ho, ?_⟩
  rw [State.position, Source.positionIn, hf.unit]

theorem genuine_of_failsAt {position : Source.Position} (hx : x.Sound Known)
    (h : FailsAt x.frame x.state position) : Genuine Known position := by
  obtain ⟨⟨text, placed⟩, units, groups⟩ := hx
  cases h with
  | here => exact placed.genuine units placed.cursor.offset_le
  | @waiting t waits =>
    have place : t.origin = ⟨x.frame.unit, t.origin.offset⟩ := by
      rw [← (placed.hasAt t waits).2.1]
    exact place ▸ placed.genuine units (placed.offset_le waits)
  | line next read =>
    obtain ⟨ends, c', crosses, rfl⟩ := Cursor.crosses_of_readLine_error read
    have hin := (crosses.in (placed.cursor.next next)).1
    exact placed.genuine units hin.offset_le
  | group mem => exact groups _ mem

/-- A move opens a group at its own position, and leaves the others where they were opened. -/
theorem Move.forall_regroup {P : Source.Position → Prop} {m : Move} {position : Source.Position}
    {gs : List Group} (hgs : ∀ g ∈ gs, P g.openedAt) (hp : P position) :
    ∀ g ∈ m.regroup position gs, P g.openedAt := by
  cases m with
  | none => exact hgs
  | opening b => exact List.forall_mem_cons.2 ⟨hp, hgs⟩
  | branch b =>
    cases gs with
    | nil => exact hgs
    | cons g gs =>
      obtain ⟨hg, hgs⟩ := List.forall_mem_cons.1 hgs
      exact List.forall_mem_cons.2 ⟨Group.openedAt_further g b ▸ hg, hgs⟩
  | ending =>
    cases gs with
    | nil => exact hgs
    | cons g gs => exact (List.forall_mem_cons.1 hgs).2

/-- A library is known when all its texts are, each as the unit of its path. -/
def Library.AllKnown (l : Library) (Known : Source.Unit → Prop) : Prop :=
  ∀ path text, l.text? path = some text → Known ⟨path, text⟩

theorem units_entry (hlib : env.library.AllKnown Known) {i : Inclusion} (fresh : i.Fresh env s)
    (hs : ∀ u ∈ s.units, Known u) : ∀ u ∈ (s.entry i).state.units, Known u := by
  intro u hu
  rcases Source.mem_addUnit hu with hu | rfl
  · exact hs u hu
  · exact hlib i.path i.text fresh.text

/-- A run reads nothing but its unit and texts of the library. -/
theorem units_of_runs (hlib : env.library.AllKnown Known) (h : Runs env x t)
    (hx : ∀ u ∈ x.state.units, Known u) : ∀ u ∈ t.units, Known u := by
  induction h with
  | finish step => exact (step_finished step).1 ▸ hx
  | next step _ ih => exact ih ((step_next step).2.units.symm ▸ hx)
  | @splice x f' s' s'' t i ends step _ _ ih ih' =>
    obtain ⟨-, same, fresh⟩ := step_splice step
    have spliced := ih (units_entry hlib fresh (same.units.symm ▸ hx))
    exact ih' ((State.SamePlace.emitLineEnds s'' x.frame.unit ends).units.symm ▸ spliced)

theorem Point.Sound.next {f' : Frame} (hx : x.Sound Known) (h : x.step env = (.next f', s')) :
    Point.Sound Known ⟨f', s'⟩ := by
  obtain ⟨⟨text, placed⟩, units, groups⟩ := hx
  refine ⟨⟨text, (placed_next placed h).1⟩, (step_next h).2.units ▸ units, ?_⟩
  rcases groups_of_next h with ⟨-, -, -, same⟩ | ⟨s₁, line, after, reads, moves, -⟩
  · exact same ▸ groups
  · rw [position_flush reads.flush] at moves
    exact moves ▸ Move.forall_regroup groups (placed.genuine units placed.cursor.offset_le)

theorem Point.Sound.enter {f' : Frame} {i : Inclusion} {ends : List Nat} (hlib : env.library.AllKnown Known)
    (hx : x.Sound Known) (h : x.step env = (.splice i ends f', s')) : (s'.entry i).Sound Known := by
  obtain ⟨-, same, fresh⟩ := step_splice h
  refine ⟨⟨i.text, placed_entry s' i⟩, units_entry hlib fresh (same.units.symm ▸ hx.units), ?_⟩
  exact groups_of_splice h ▸ hx.groups

theorem Point.Sound.resume {f' : Frame} {s'' : State} {i : Inclusion} {ends : List Nat}
    (hlib : env.library.AllKnown Known) (hx : x.Sound Known)
    (h : x.step env = (.splice i ends f', s')) (run : (s'.entry i).run env = (none, s'')) :
    Point.Sound Known ⟨f', s''.emitLineEnds x.frame.unit ends⟩ := by
  obtain ⟨text, placed⟩ := hx.placed
  have spliced := units_of_runs hlib (runs_iff.2 run) (hx.enter hlib h).units
  refine ⟨⟨text, (placed_advances (.splice h run) placed).1⟩, ?_, ?_⟩
  · exact (State.SamePlace.emitLineEnds s'' x.frame.unit ends).units.symm ▸ spliced
  · exact groups_of_resume h run ▸ hx.groups

/-- **Every point that is reached is sound.** -/
theorem sound_of_reached (hlib : env.library.AllKnown Known) (hroot : root.Sound Known)
    (h : Reached env root x) : x.Sound Known := by
  refine h.induct hroot fun x y hx hxy => ?_
  cases hxy with
  | next step => exact hx.next step
  | enter step => exact hx.enter hlib step
  | resume step run => exact hx.resume hlib step run

/-! ## Runs that fail -/

/-- **A run that fails does so at a point that it reaches.** -/
theorem exists_step_of_fails (h : Fails env root e t) :
    ∃ x, Reached env root x ∧ x.step env = (.failed e, t) := by
  induction h with
  | step step => exact ⟨_, reached_iff.2 .refl, step⟩
  | next step _ ih =>
    obtain ⟨x, reached, fails⟩ := ih
    exact ⟨x, reached_iff.2 (.head (.next step) (reached_iff.1 reached)), fails⟩
  | enter step _ ih =>
    obtain ⟨x, reached, fails⟩ := ih
    exact ⟨x, reached_iff.2 (.head (.enter step) (reached_iff.1 reached)), fails⟩
  | resume step spliced _ ih =>
    obtain ⟨x, reached, fails⟩ := ih
    exact ⟨x, reached_iff.2 (.head (.resume step (run_of_runs spliced)) (reached_iff.1 reached)),
      fails⟩

/-- **A run that fails points to a genuine position.** -/
theorem genuine_of_fails (hlib : env.library.AllKnown Known) (hroot : root.Sound Known)
    (h : Fails env root e t) : Genuine Known e.position := by
  obtain ⟨x, reached, fails⟩ := exists_step_of_fails h
  exact genuine_of_failsAt (sound_of_reached hlib hroot reached) (failsAt_of_failed fails)

/-! ## Sources -/

namespace Session

variable {p : Session} {source output : String}

/-- The units that can be read for a source: the source, and the texts of the library. -/
def Reads (p : Session) (source : String) (u : Source.Unit) : Prop :=
  u = ⟨p.rootUnit, source⟩ ∨ p.library.text? u.name = some u.text

theorem known_library (p : Session) (source : String) :
    p.settings.library.AllKnown (p.Reads source) := fun _ _ => .inr

theorem sound_entry (p : Session) (source : String) :
    (p.entry source).Sound (p.Reads source) := by
  refine ⟨⟨source, placed_begin _ _ _ _⟩, fun u hu => ?_, fun g hg => absurd hg List.not_mem_nil⟩
  rcases Source.mem_addUnit hu with hu | rfl
  · exact absurd hu (Array.not_mem_empty u)
  · exact .inl rfl

/-- **A source that is not accepted is refused at a genuine position.** -/
theorem genuine_of_tryProcess (h : (p.tryProcess source).1 = .error e) :
    Genuine (p.Reads source) e.position := by
  have run : p.runSource source = (p.entry source).run p.settings := rfl
  rw [tryProcess, run] at h
  rcases runs_or_fails p.settings (p.entry source) with ⟨t, runs⟩ | ⟨e', t, fails⟩
  · rw [run_of_runs runs] at h
    cases h
  · rw [run_of_fails fails] at h
    obtain rfl := Except.error.inj h
    exact genuine_of_fails (p.known_library source) (p.sound_entry source) fails

/-- **Every index of an output that is not empty has a genuine position**, one past the end too. -/
theorem genuine_of_sourceMap (h : (p.tryProcess source).1 = .ok output) (hne : output ≠ "")
    (i : Nat) : Genuine (p.Reads source) ((p.tryProcess source).2.2.sourceMap.position i) := by
  obtain ⟨t, runs, -, rfl, hmap⟩ := completes_of_tryProcess h
  have size : 0 < Piece.size t.pieces := Text.utf8ByteSize_pos hne
  obtain ⟨j, piece, k, l, hat, hl, locate⟩ := Source.Map.exists_locate t.units size i
  have placed := placed_begin p.state.clear p.rootUnit source p.basePath
  obtain ⟨piece', k', u, hat', hunit, hoffset⟩ :=
    exists_place runs placed (Nat.zero_le j) (Piece.lt_size_of_at? hat)
  obtain ⟨rfl, rfl⟩ := Prod.mk.inj (Option.some.inj (hat.symm.trans hat'))
  have known := units_of_runs (p.known_library source) runs (p.sound_entry source).units
  refine ⟨u, known u (Array.mem_of_getElem? hunit), piece.offsetAt l, hoffset l hl, ?_⟩
  have locate : t.sourceMap.locate i = some (piece.unit, piece.offsetAt l) := locate
  have units : t.sourceMap.units = t.units := Source.Map.units_map _ _
  rw [hmap, Source.Map.position, Source.Map.position?, locate, units]
  simp only [Option.map_some, Option.getD_some, Source.positionIn, hunit]

/-- An empty output has no position at all. -/
theorem unknown_of_sourceMap (h : (p.tryProcess source).1 = .ok "") (i : Nat) :
    (p.tryProcess source).2.2.sourceMap.position i = .unknown := by
  obtain ⟨t, -, -, hout, hmap⟩ := completes_of_tryProcess h
  have size : Piece.size t.pieces = 0 := by
    have hout : Piece.output t.pieces = "" := hout.symm
    rw [Piece.size, hout]
    rfl
  rw [hmap]
  exact Source.Map.position_of_size_zero t.units size i

end Session

end Preprocess

end ShaderPass
