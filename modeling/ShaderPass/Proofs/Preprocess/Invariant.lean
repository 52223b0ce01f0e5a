import ShaderPass.Preprocess.Session
import ShaderPass.Proofs.Preprocess.Step

/-!
# Proofs/Preprocess/Invariant — what each step keeps, every run and every session keeps

    begin ──step──▸ · ──step──▸ · ──splice──▸ begin ──step──▸ ⋯ ──▸ finished, or failed

What is known of a frame and of a state **lasts** when a step hands it on, and the beginning of a
unit starts with it.  Then it is known of the state at the end of a run, whether the run fails or not
(`Lasts.run`).  For macros that is all there is to show, and what is known of the macros that a body
can be read for is known of all the macros of a session, after whatever it has been used for
(`macros_of_reachable`).
-/

namespace ShaderPass.Preprocess

open Macro (Table Definition Origin)

variable {env : Settings} {f f' : Frame} {s s' : State} {o : Outcome}

/-! ## Runs -/

/-- The frame that a step goes on with. -/
def Outcome.frame? : Outcome → Option Frame
  | .finished | .failed _ => none
  | .next f | .splice _ _ f => some f

/-- What is known of frames and of states lasts in the course of a run. -/
structure Lasts (env : Settings) (J : Frame → Prop) (I : State → Prop) : Prop where
  step : ∀ {f s o s'}, J f → I s → step env f s = (o, s') → I s' ∧ ∀ f' ∈ o.frame?, J f'
  begins : ∀ {s}, I s → ∀ name text directory,
    J (begin s name text directory).1 ∧ I (begin s name text directory).2
  lineEnds : ∀ {s}, I s → ∀ unit ends, I (s.emitLineEnds unit ends)

/-- **What lasts is known at the end of a run**, whether it fails or not. -/
theorem Lasts.run {J : Frame → Prop} {I : State → Prop} (h : Lasts env J I) (hf : J f) (hs : I s) :
    I (run env f s).2 := by
  induction f, s using runToEnd.induct env with
  | case1 f s s' _ hk =>
    have step : Preprocess.step env f s = (.finished, s') := congrArg Subtype.val hk
    rw [run_of_finished step]
    exact (h.step hf hs step).1
  | case2 f s e s' _ hk =>
    have step : Preprocess.step env f s = (.failed e, s') := congrArg Subtype.val hk
    rw [run_of_failed step]
    exact (h.step hf hs step).1
  | case3 f s f' s' _ hk ih =>
    have step : Preprocess.step env f s = (.next f', s') := congrArg Subtype.val hk
    obtain ⟨hs', hf'⟩ := h.step hf hs step
    rw [run_of_next step]
    exact ih (hf' f' rfl) hs'
  | case4 f s i ends f' s' _ hk e s'' _ hr ih =>
    have step : Preprocess.step env f s = (.splice i ends f', s') := congrArg Subtype.val hk
    have spliced : Preprocess.run env (enter s' i).1 (enter s' i).2 = (some e, s'') :=
      congrArg Subtype.val hr
    obtain ⟨hi, hs'⟩ := h.begins (h.step hf hs step).1 i.path i.text (VirtualPath.parent i.path)
    have ih := ih hi hs'
    rw [spliced] at ih
    rw [run_of_splice step, spliced]
    exact ih
  | case5 f s i ends f' s' _ hk s'' _ hr _ ih ih' =>
    have step : Preprocess.step env f s = (.splice i ends f', s') := congrArg Subtype.val hk
    have spliced : Preprocess.run env (enter s' i).1 (enter s' i).2 = (none, s'') :=
      congrArg Subtype.val hr
    obtain ⟨hs', hf'⟩ := h.step hf hs step
    obtain ⟨hi, hs'⟩ := h.begins hs' i.path i.text (VirtualPath.parent i.path)
    have ih := ih hi hs'
    rw [spliced] at ih
    rw [run_of_splice step, spliced]
    exact ih' (hf' f' rfl) (h.lineEnds ih f.unit ends)

/-! ## Macros -/

/-- What a step can do to the macros. -/
inductive Redefines (macros : Table) : Table → Prop
  | keeps : Redefines macros macros
  | defines {name : String} {params : Option (List String)} {body : String} {d : Definition}
      (reads : Definition.read name params body = .ok d) : Redefines macros (macros.define d)
  | undefines (name : String) : Redefines macros (macros.undefine name)

theorem State.macros_define (s : State) (env : Settings) (position : Source.Position)
    (d : Definition) : (s.define env position d).macros = s.macros.define d := by
  unfold State.define
  split <;> rfl

theorem State.macros_emitLineEnds (s : State) (unit : Nat) (ends : List Nat) :
    (s.emitLineEnds unit ends).macros = s.macros := by rw [s.emitLineEnds_eq]

theorem macros_flush {s₁ : State} (h : flush f s = .ok s₁) : s₁.macros = s.macros := by
  rw [flush_eq h]

/-- The macro that a definition defines has the body that is read for it. -/
theorem read_of_readDefinition {name body : String} {params : Option (List String)} {d : Definition}
    (h : readDefinition name params body = .ok d) : Definition.read name params body = .ok d := by
  unfold readDefinition at h
  split at h
  next => cases h
  next =>
    split at h
    next => cases h
    next hd =>
      split at h
      next => cases h
      next =>
        cases h
        exact hd

theorem redefines_handle {origin : Origin} {line : String}
    (h : handle env f origin line s = .ok (.proceed s')) : Redefines s.macros s'.macros := by
  cases handles_of_handle h with
  | skipped | opensSkipped => exact .keeps
  | obeys _ _ obeys =>
    cases obeys with
    | define reads =>
      rw [State.macros_define]
      exact .defines (read_of_readDefinition reads)
    | undefine name => exact .undefines name
    | openGroup | elseIf | otherwise | endGroup | notSpliced | once | passThrough | nothing =>
      exact .keeps

/-- **A step keeps the macros, defines one or undefines one.** -/
theorem redefines_step (h : step env f s = (o, s')) : Redefines s.macros s'.macros := by
  cases step_cases h with
  | failed => exact .keeps
  | failedAfter flush =>
    rw [macros_flush flush]
    exact .keeps
  | @unterminated s₁ _ flush =>
    have hmacros : (s₁.closeAbove f.depth).macros = s₁.macros := rfl
    rw [hmacros, macros_flush flush]
    exact .keeps
  | @finish s₁ _ flush =>
    have hmacros : s₁.leave.macros = s₁.macros := rfl
    rw [hmacros, macros_flush flush]
    exact .keeps
  | splice reads _ =>
    rw [macros_flush reads.flush]
    exact .keeps
  | directive reads handle =>
    rw [State.macros_emitLineEnds, ← macros_flush reads.flush]
    exact redefines_handle handle
  | token | skippedLineEnd | skipped => exact .keeps

/-! ## Sessions -/

/-- What is known of the empty table, and lasts whatever is defined and undefined. -/
structure Persists (I : Table → Prop) : Prop where
  empty : I .empty
  redefines : ∀ {macros macros'}, I macros → Redefines macros macros' → I macros'

namespace Session

/-- What a session can be after it has been used. -/
inductive Reachable : Session → Prop
  | new : Reachable .new
  | setRootUnit {p : Session} (h : Reachable p) (name : String) : Reachable (p.setRootUnit name)
  | reset {p : Session} (h : Reachable p) (texts : List (String × String)) (basePath : String) :
      Reachable (p.reset texts basePath)
  | predefine {p q : Session} {name : String} {body : Option String} (h : Reachable p)
      (defines : p.predefine name body = .ok q) : Reachable q
  | tryProcess {p : Session} (h : Reachable p) (source : String) :
      Reachable (p.tryProcess source).2.2
  | process {p : Session} (h : Reachable p) (source : String) : Reachable (p.process source).2.2
  | takeSourceMap {p : Session} (h : Reachable p) : Reachable p.takeSourceMap.2

variable {p q : Session} {I : Table → Prop}

/-- A run keeps what persists, whether it fails or not. -/
theorem macros_runSource (h : Persists I) (hp : I p.macros) (source : String) :
    I (p.runSource source).2.macros := by
  have lasts : Lasts p.settings (fun _ => True) (fun s => I s.macros) := by
    refine ⟨fun _ hs step => ⟨h.redefines hs (redefines_step step), fun _ _ => trivial⟩,
      fun hs _ _ _ => ⟨trivial, hs⟩, fun hs unit ends => ?_⟩
    rwa [State.macros_emitLineEnds]
  exact lasts.run trivial hp

theorem macros_seed (h : Persists I) {macros : Table} (hm : I macros)
    (entries : List (String × String)) : I (entries.foldl seed macros) := by
  induction entries generalizing macros with
  | nil => exact hm
  | cons entry entries ih =>
    refine ih ?_
    unfold seed
    split
    next hd => exact h.redefines hm (.defines hd)
    next => exact hm

theorem macros_predefine (h : Persists I) {name : String} {body : Option String}
    (hp : I p.macros) (hq : p.predefine name body = .ok q) : I q.macros := by
  unfold predefine at hq
  simp only at hq
  split at hq
  next => cases hq
  next hd =>
    cases hq
    exact h.redefines hp (.defines hd)

/-- Keeping a failure or not is all that sets the two ways to process a source apart. -/
theorem exists_process_eq (p : Session) (source : String) :
    ∃ e, (p.process source).2.2 = { (p.tryProcess source).2.2 with lastError := e } := by
  unfold process
  split
  next h =>
    rw [h]
    exact ⟨_, rfl⟩
  next e _ _ h =>
    rw [h]
    exact ⟨some e, rfl⟩

/-- **What persists is known of the macros of a session, whatever it has been used for.** -/
theorem macros_of_reachable (h : Persists I) (hp : p.Reachable) : I p.macros := by
  induction hp with
  | new => exact h.empty
  | setRootUnit _ _ ih => exact ih
  | reset _ _ _ _ => exact macros_seed h h.empty _
  | predefine _ defines ih => exact macros_predefine h ih defines
  | tryProcess _ source ih => exact macros_runSource h ih source
  | process _ source ih =>
    obtain ⟨e, he⟩ := exists_process_eq _ source
    rw [he]
    exact macros_runSource h ih source
  | takeSourceMap _ ih => exact ih

end Session

end ShaderPass.Preprocess
