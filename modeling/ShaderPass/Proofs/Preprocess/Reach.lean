import ShaderPass.Proofs.Preprocess.Activation
import ShaderPass.Proofs.Preprocess.Step

/-!
# Proofs/Preprocess/Reach — from point to point, to the end of a run or to a failure

    x ──▸ y           next: the step at x is over
    x ──▸ b ⋯ done    enter: a text is spliced in at x, and begins
    x ──▸ y           resume: the text spliced in at x is done

A point **proceeds** to the points whose runs are part of its own.  Those that are reached are those
that the root proceeds to, in any number of steps (`reached_iff`).  A failure at one of them is the
failure of the whole run (`run_of_reached`).  No sequence of such steps is endless
(`wellFounded_proceeds`), so every run is finite: it comes to an end of its unit, or it fails at a
point that it reaches (`runs_or_fails`).
-/

namespace ShaderPass.Preprocess

open Lexeme (Cursor)
open Relation (ReflTransGen)

variable {env : Settings} {root x y : Point} {s t : State} {e : Error}

/-! ## What a run goes on with -/

/-- A point **proceeds** to another: its run goes on there, or runs what begins there first. -/
inductive Proceeds (env : Settings) : Point → Point → Prop
  | next {x : Point} {f' : Frame} {s' : State} (step : x.step env = (.next f', s')) :
      Proceeds env x ⟨f', s'⟩
  | enter {x : Point} {f' : Frame} {s' : State} {i : Inclusion} {ends : List Nat}
      (step : x.step env = (.splice i ends f', s')) : Proceeds env x (s'.entry i)
  | resume {x : Point} {f' : Frame} {s' s'' : State} {i : Inclusion} {ends : List Nat}
      (step : x.step env = (.splice i ends f', s')) (run : (s'.entry i).run env = (none, s'')) :
      Proceeds env x ⟨f', s''.emitLineEnds x.frame.unit ends⟩

theorem proceeds_of_advances (h : Advances env x y) : Proceeds env x y := by
  cases h with
  | next step => exact .next step
  | splice step run => exact .resume step run

theorem proceeds_of_reach (h : ReflTransGen (Advances env) x y) :
    ReflTransGen (Proceeds env) x y :=
  ReflTransGen.mono (fun _ _ => proceeds_of_advances) _ _ h

theorem proceeds_of_activated (h : Activated env x y) : ReflTransGen (Proceeds env) x y := by
  induction h with
  | refl => exact .refl
  | tail _ splices ih =>
    obtain ⟨advances, step⟩ := splices
    exact (ih.trans (proceeds_of_reach advances)).tail (.enter step)

theorem Reached.proceeds (h : Reached env root x) (hxy : Proceeds env x y) : Reached env root y := by
  obtain ⟨a, activated, advances⟩ := h
  cases hxy with
  | next step => exact ⟨a, activated, advances.tail (.next step)⟩
  | enter step => exact ⟨_, activated.tail ⟨advances, step⟩, .refl⟩
  | resume step run => exact ⟨a, activated, advances.tail (.splice step run)⟩

/-- **The points that are reached are those that the root proceeds to.** -/
theorem reached_iff : Reached env root x ↔ ReflTransGen (Proceeds env) root x := by
  refine ⟨fun ⟨a, activated, advances⟩ =>
    (proceeds_of_activated activated).trans (proceeds_of_reach advances), fun h => ?_⟩
  induction h with
  | refl => exact ⟨root, .refl, .refl⟩
  | tail _ hxy ih => exact ih.proceeds hxy

/-- What holds at the root, and where it held at the point before, holds at every point that is
reached. -/
theorem Reached.induct {P : Point → Prop} (h : Reached env root x) (hroot : P root)
    (proceeds : ∀ x y, P x → Proceeds env x y → P y) : P x := by
  induction reached_iff.1 h with
  | refl => exact hroot
  | tail _ hxy ih => exact proceeds _ _ (ih (reached_iff.2 ‹_›)) hxy

/-- **Every point that is reached is placed in its text**, and has been read up to from the start. -/
theorem placed_of_reached {text : String} (h : Reached env root x)
    (hroot : root.frame.Placed root.state text) (hstart : root.frame.cursor = .ofString text) :
    ∃ text, x.frame.Placed x.state text ∧
      ∃ ends, (Cursor.ofString text).Crosses ends x.frame.cursor := by
  let P (x : Point) := ∃ text, x.frame.Placed x.state text ∧
    ∃ ends, (Cursor.ofString text).Crosses ends x.frame.cursor
  refine h.induct (P := P) ⟨text, hroot, [], hstart ▸ .refl _⟩ ?_
  rintro x y ⟨text, hplaced, ends, crosses⟩ hxy
  cases hxy with
  | next step =>
    obtain ⟨ends', crosses'⟩ := crosses_of_next step
    exact ⟨text, (placed_advances (.next step) hplaced).1, _, crosses.trans crosses'⟩
  | enter step => exact ⟨_, placed_entry _ _, [], .refl _⟩
  | resume step run =>
    have crosses' := crosses_of_splice step
    exact ⟨text, (placed_advances (.splice step run) hplaced).1, _, crosses.trans crosses'⟩

/-! ## States -/

/-- The states that a run passes: those at its points and those that its steps lead to. -/
inductive Passes (env : Settings) (root : Point) : State → Prop
  | before {x : Point} (reached : Reached env root x) : Passes env root x.state
  | after {x : Point} {o : Outcome} {s' : State} (reached : Reached env root x)
      (step : x.step env = (o, s')) : Passes env root s'

/-! ## Failures -/

/-- What a run that fails goes through. -/
inductive Fails (env : Settings) : Point → Error → State → Prop
  | step {x : Point} {e : Error} {t : State} (step : x.step env = (.failed e, t)) : Fails env x e t
  | next {x : Point} {f' : Frame} {s' t : State} {e : Error} (step : x.step env = (.next f', s'))
      (rest : Fails env ⟨f', s'⟩ e t) : Fails env x e t
  | enter {x : Point} {f' : Frame} {s' t : State} {i : Inclusion} {ends : List Nat} {e : Error}
      (step : x.step env = (.splice i ends f', s')) (spliced : Fails env (s'.entry i) e t) :
      Fails env x e t
  | resume {x : Point} {f' : Frame} {s' s'' t : State} {i : Inclusion} {ends : List Nat} {e : Error}
      (step : x.step env = (.splice i ends f', s')) (spliced : Runs env (s'.entry i) s'')
      (rest : Fails env ⟨f', s''.emitLineEnds x.frame.unit ends⟩ e t) : Fails env x e t

/-- A failure of what a point proceeds to is a failure of its run. -/
theorem run_of_proceeds (h : Proceeds env x y) (hy : y.run env = (some e, t)) :
    x.run env = (some e, t) := by
  cases h with
  | next step => exact (run_of_next step).trans hy
  | enter step =>
    refine (run_of_splice step).trans ?_
    have spliced : run env (enter _ _).1 (enter _ _).2 = _ := hy
    rw [spliced]
  | resume step run =>
    refine (run_of_splice step).trans ?_
    have spliced : Preprocess.run env (enter _ _).1 (enter _ _).2 = _ := run
    rw [spliced]
    exact hy

/-- **A failure at a point that is reached is the failure of the whole run.** -/
theorem run_of_reached (h : Reached env root x) (hx : x.run env = (some e, t)) :
    root.run env = (some e, t) := by
  have hreach := reached_iff.1 h
  clear h
  induction hreach using ReflTransGen.head_induction_on with
  | refl => exact hx
  | head hxy _ ih => exact run_of_proceeds hxy ih

theorem run_of_fails (h : Fails env x e t) : x.run env = (some e, t) := by
  induction h with
  | step step => exact run_of_failed step
  | next step _ ih => exact run_of_proceeds (.next step) ih
  | enter step _ ih => exact run_of_proceeds (.enter step) ih
  | resume step spliced _ ih => exact run_of_proceeds (.resume step (run_of_runs spliced)) ih

/-! ## Every run is finite -/

theorem Inclusion.Fresh.contains {i : Inclusion} (h : i.Fresh env s) :
    env.library.contains i.path = true := by
  rw [Library.contains, h.text]
  rfl

/-- The texts that are off the chain, and then the text that is left of the unit. -/
def Point.remaining (env : Settings) (x : Point) : Nat × Nat :=
  (env.library.countOff x.state.chain, x.frame.cursor.rest.length)

/-- **A point proceeds to what there is less left of**: to less of its unit on the same chain, or to
a text that was off the chain. -/
theorem lex_remaining (h : Proceeds env x y) :
    Prod.Lex (· < ·) (· < ·) (y.remaining env) (x.remaining env) := by
  have shorter : ∀ {f' : Frame} {s' : State}, x.frame.After f' → s'.chain = x.state.chain →
      Prod.Lex (· < ·) (· < ·) (Point.remaining env ⟨f', s'⟩) (x.remaining env) := by
    intro f' s' after chain
    rw [Point.remaining, Point.remaining, chain]
    exact .right _ after.shorter
  cases h with
  | next step =>
    obtain ⟨after, same⟩ := step_next step
    exact shorter after same.chain
  | enter step =>
    obtain ⟨-, same, fresh⟩ := step_splice step
    rw [Point.remaining, Point.remaining, ← same.chain]
    exact .left _ _ (Library.countOff_cons_lt fresh.contains fresh.offChain)
  | resume step run =>
    exact shorter (step_splice step).1 (same_of_advances (.splice step run)).2.2

theorem wellFounded_proceeds (env : Settings) : WellFounded fun y x => Proceeds env x y :=
  Subrelation.wf lex_remaining
    (InvImage.wf (Point.remaining env) (Prod.lex Nat.lt_wfRel Nat.lt_wfRel).wf)

/-- **Every run comes to the end of its unit or fails.** -/
theorem runs_or_fails (env : Settings) (x : Point) :
    (∃ t, Runs env x t) ∨ ∃ e t, Fails env x e t := by
  induction x using (wellFounded_proceeds env).induction with
  | h x ih =>
    obtain ⟨⟨o, s'⟩, step⟩ : ∃ r, x.step env = r := ⟨_, rfl⟩
    cases o with
    | finished => exact .inl ⟨s', .finish step⟩
    | failed e => exact .inr ⟨e, s', .step step⟩
    | next f' =>
      rcases ih _ (.next step) with ⟨t, runs⟩ | ⟨e, t, fails⟩
      · exact .inl ⟨t, .next step runs⟩
      · exact .inr ⟨e, t, .next step fails⟩
    | splice i ends f' =>
      rcases ih _ (.enter step) with ⟨s'', spliced⟩ | ⟨e, t, fails⟩
      · rcases ih _ (.resume step (run_of_runs spliced)) with ⟨t, runs⟩ | ⟨e, t, fails⟩
        · exact .inl ⟨t, .splice step spliced runs⟩
        · exact .inr ⟨e, t, .resume step spliced fails⟩
      · exact .inr ⟨e, t, .enter step fails⟩

end ShaderPass.Preprocess
