import ShaderPass.Preprocess.Step

/-!
# Preprocess/Run — reading a unit with all the texts spliced into it

`run` makes steps until the unit ends or something fails.  A text that a step asks for is run in
full, on the same state, before the next step.  The run ends because a step leaves less text, and
because a text that is spliced in is in the library and not on the chain: the texts of the library
that are off the chain get fewer (`Library.countOff_cons_lt`), whatever the texts say.  For that a
run that does not fail has to take its unit off the chain again, so that is part of what it gives.
-/

namespace ShaderPass.Preprocess

/-- Begins a text that is spliced in. -/
def enter (s : State) (i : Inclusion) : Frame × State :=
  begin s i.path i.text (VirtualPath.parent i.path)

/-- What is known of the outcome of a step at a frame: a unit that ends is left, a frame that comes
next has less text of the unit left, and a text that is asked for is new to the chain. -/
def Outcome.Known (env : Settings) (f : Frame) (s : State) : Outcome → State → Prop
  | .finished, s' => s'.chain = s.chain.tail
  | .failed _, _ => True
  | .next f', s' => f.After f' ∧ s.SamePlace s'
  | .splice i _ f', s' => f.After f' ∧ s.SamePlace s' ∧ i.Fresh env s'

/-- A step, together with what is known of its outcome. -/
def knownStep (env : Settings) (f : Frame) (s : State) :
    { r : Outcome × State // r.1.Known env f s r.2 } :=
  ⟨step env f s, by
    cases h : step env f s with
    | mk o s' =>
      cases o with
      | finished => exact (step_finished h).2
      | failed => exact trivial
      | next => exact step_next h
      | splice => exact step_splice h⟩

/-- The run of a unit, which leaves the unit if it does not fail. -/
def runToEnd (env : Settings) (f : Frame) (s : State) :
    { r : Option Error × State // r.1 = none → r.2.chain = s.chain.tail } :=
  match knownStep env f s with
  | ⟨(.finished, s'), known⟩ => ⟨(none, s'), fun _ => known⟩
  | ⟨(.failed e, s'), _⟩ => ⟨(some e, s'), fun he => by cases he⟩
  | ⟨(.next f', s'), known⟩ =>
    let r := runToEnd env f' s'
    ⟨r.1, fun he => (r.2 he).trans (congrArg List.tail known.2.chain)⟩
  | ⟨(.splice i ends f', s'), known⟩ =>
    match runToEnd env (enter s' i).1 (enter s' i).2 with
    | ⟨(some e, s''), _⟩ => ⟨(some e, s''), fun he => by cases he⟩
    | ⟨(none, s''), left⟩ =>
      have chain : (s''.emitLineEnds f.unit ends).chain = s.chain :=
        ((State.SamePlace.emitLineEnds s'' f.unit ends).chain.trans (left rfl)).trans
          known.2.1.chain
      let r := runToEnd env f' (s''.emitLineEnds f.unit ends)
      ⟨r.1, fun he => (r.2 he).trans (congrArg List.tail chain)⟩
termination_by (env.library.countOff s.chain, f.cursor.rest.length)
decreasing_by
  · rw [known.2.chain]
    exact Prod.Lex.right _ known.1.shorter
  · obtain ⟨_, same, fresh⟩ := known
    rw [← same.chain]
    exact Prod.Lex.left _ _
      (Library.countOff_cons_lt (by simp [Library.contains, fresh.text]) fresh.offChain)
  · rw [chain]
    exact Prod.Lex.right _ known.1.shorter

/-- The failure that ends a run, if one does, and the state at its end. -/
def run (env : Settings) (f : Frame) (s : State) : Option Error × State := (runToEnd env f s).1

/-- A run that does not fail takes its unit off the chain. -/
theorem chain_run {env : Settings} {f : Frame} {s s' : State} (h : run env f s = (none, s')) :
    s'.chain = s.chain.tail := by
  have left := (runToEnd env f s).2
  rw [run] at h
  rw [h] at left
  exact left rfl

/-! ## A run, step by step -/

/-- The run from a frame, by the outcome of its step. -/
theorem run_eq (env : Settings) (f : Frame) (s : State) : run env f s =
    match step env f s with
    | (.finished, s') => (none, s')
    | (.failed e, s') => (some e, s')
    | (.next f', s') => run env f' s'
    | (.splice i ends f', s') =>
      match run env (enter s' i).1 (enter s' i).2 with
      | (some e, s'') => (some e, s'')
      | (none, s'') => run env f' (s''.emitLineEnds f.unit ends) := by
  have known : (knownStep env f s).1 = step env f s := rfl
  rw [run, runToEnd, ← known]
  split
  next hk => rw [hk]
  next hk => rw [hk]
  next hk => rw [hk]; rfl
  next hk =>
    rw [hk]
    simp only [run]
    split
    next hr => rw [hr]
    next hr => rw [hr]

theorem run_of_finished {env : Settings} {f : Frame} {s s' : State}
    (h : step env f s = (.finished, s')) : run env f s = (none, s') := by rw [run_eq, h]

theorem run_of_failed {env : Settings} {f : Frame} {s s' : State} {e : Error}
    (h : step env f s = (.failed e, s')) : run env f s = (some e, s') := by rw [run_eq, h]

theorem run_of_next {env : Settings} {f f' : Frame} {s s' : State}
    (h : step env f s = (.next f', s')) : run env f s = run env f' s' := by rw [run_eq, h]

/-- A run in which a text is spliced in fails where the run of that text does, and otherwise goes on
from the state that one leaves. -/
theorem run_of_splice {env : Settings} {f f' : Frame} {s s' : State} {i : Inclusion}
    {ends : List Nat} (h : step env f s = (.splice i ends f', s')) :
    run env f s =
      match run env (enter s' i).1 (enter s' i).2 with
      | (some e, s'') => (some e, s'')
      | (none, s'') => run env f' (s''.emitLineEnds f.unit ends) := by rw [run_eq, h]

/-- Runs a source under a name, with paths read from the base directory. -/
def runSource (env : Settings) (s : State) (name source : String) : Option Error × State :=
  let (f, s) := begin s name source env.basePath
  run env f s

end ShaderPass.Preprocess
