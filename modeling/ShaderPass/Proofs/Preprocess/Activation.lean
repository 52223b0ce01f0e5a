import Mathlib.Logic.Relation
import ShaderPass.Preprocess.Session
import ShaderPass.Proofs.Preprocess.Written

/-!
# Proofs/Preprocess/Activation — a run as the activations of its units

    a ●──▸●──▸●─────────────▸●──▸ finished       Advances: the steps of one activation
               ╲           ╱
              b ●──▸●──▸●                        Splices a b: b begins within it

An **activation** is one reading of a unit, from its beginning to its end, without the texts spliced
into it.  A run that does not fail has put out each byte at a point of one of its activations
(`reached_of_runs`), and what has been put out stays where it is (`at?_of_writes`).
-/

namespace ShaderPass.Preprocess

open Relation (ReflTransGen)
open Source (Piece)

/-- A point of a run: the frame and the state before a step. -/
structure Point where
  frame : Frame
  state : State

/-- The beginning of a text that is spliced in. -/
def State.entry (s : State) (i : Inclusion) : Point := ⟨(enter s i).1, (enter s i).2⟩

/-- The step at a point. -/
def Point.step (env : Settings) (x : Point) : Outcome × State := Preprocess.step env x.frame x.state

/-- The run from a point on, to the end of its unit. -/
def Point.run (env : Settings) (x : Point) : Option Error × State :=
  Preprocess.run env x.frame x.state

/-- One point of an activation **advances** to the next: by a step, or over a text that is spliced
in. -/
inductive Advances (env : Settings) : Point → Point → Prop
  | next {x : Point} {f' : Frame} {s' : State} (step : x.step env = (.next f', s')) :
      Advances env x ⟨f', s'⟩
  | splice {x : Point} {f' : Frame} {s' s'' : State} {i : Inclusion} {ends : List Nat}
      (step : x.step env = (.splice i ends f', s')) (run : (s'.entry i).run env = (none, s'')) :
      Advances env x ⟨f', s''.emitLineEnds x.frame.unit ends⟩

/-- The activation that begins at one point **splices** in the one that begins at the other. -/
inductive Splices (env : Settings) : Point → Point → Prop
  | intro {a x : Point} {f' : Frame} {s' : State} {i : Inclusion} {ends : List Nat}
      (advances : ReflTransGen (Advances env) a x) (step : x.step env = (.splice i ends f', s')) :
      Splices env a (s'.entry i)

/-- Whether an activation begins at `a` in the course of the one that begins at `root`, or is that
one. -/
def Activated (env : Settings) (root a : Point) : Prop := ReflTransGen (Splices env) root a

/-- Whether a point belongs to an activation in the course of the one that begins at `root`. -/
def Reached (env : Settings) (root x : Point) : Prop :=
  ∃ a, Activated env root a ∧ ReflTransGen (Advances env) a x

/-- The number of bytes put out so far. -/
def State.size (s : State) : Nat := Piece.size s.pieces

/-- What is put out at a point by the activation itself, and the number of bytes put out before: the
output of the step, and the line ends that come after a text that is spliced in. -/
inductive Puts (env : Settings) (x : Point) : Nat → List Emission → Prop
  | step {o : Outcome} {s' : State} {es : List Emission} (step : x.step env = (o, s'))
      (adds : x.state.Adds es s') : Puts env x x.state.size es
  | lineEnds {f' : Frame} {s' s'' : State} {i : Inclusion} {ends : List Nat}
      (step : x.step env = (.splice i ends f', s')) (run : (s'.entry i).run env = (none, s'')) :
      Puts env x s''.size (ends.map (.lineEnd x.frame.unit))

/-- Whether a byte of the output is put out at a point by the activation itself, as byte `k` of an
emission. -/
def Writes (env : Settings) (x : Point) (i : Nat) (e : Emission) (k : Nat) : Prop :=
  ∃ start es, Puts env x start es ∧ e ∈ es ∧ start ≤ i ∧
    Piece.at? (es.map Emission.piece) (i - start) = some (e.piece, k)

variable {env : Settings} {x y a b root : Point} {s s' s'' t : State}

/-! ## Runs that do not fail -/

/-- What a run that does not fail goes through. -/
inductive Runs (env : Settings) : Point → State → Prop
  | finish {x : Point} {t : State} (step : x.step env = (.finished, t)) : Runs env x t
  | next {x : Point} {f' : Frame} {s' t : State} (step : x.step env = (.next f', s'))
      (rest : Runs env ⟨f', s'⟩ t) : Runs env x t
  | splice {x : Point} {f' : Frame} {s' s'' t : State} {i : Inclusion} {ends : List Nat}
      (step : x.step env = (.splice i ends f', s')) (spliced : Runs env (s'.entry i) s'')
      (rest : Runs env ⟨f', s''.emitLineEnds x.frame.unit ends⟩ t) : Runs env x t

theorem run_of_runs (h : Runs env x t) : x.run env = (none, t) := by
  induction h with
  | finish step => exact run_of_finished step
  | next step _ ih => exact (run_of_next step).trans ih
  | splice step _ _ ih ih' =>
    refine (run_of_splice step).trans ?_
    have spliced : run env (enter _ _).1 (enter _ _).2 = _ := ih
    rw [spliced]
    exact ih'

private theorem runs_of_run_pair (f : Frame) (s : State) :
    ∀ t, run env f s = (none, t) → Runs env ⟨f, s⟩ t := by
  induction f, s using runToEnd.induct env with
  | case1 f s s' _ hk =>
    intro t h
    have step : step env f s = (.finished, s') := congrArg Subtype.val hk
    obtain ⟨-, rfl⟩ := Prod.mk.inj ((run_of_finished step).symm.trans h)
    exact .finish step
  | case2 f s e s' _ hk =>
    intro t h
    have step : step env f s = (.failed e, s') := congrArg Subtype.val hk
    cases (run_of_failed step).symm.trans h
  | case3 f s f' s' _ hk ih =>
    intro t h
    have step : step env f s = (.next f', s') := congrArg Subtype.val hk
    exact .next step (ih t ((run_of_next step).symm.trans h))
  | case4 f s i ends f' s' _ hk e s'' _ hr _ =>
    intro t h
    have step : step env f s = (.splice i ends f', s') := congrArg Subtype.val hk
    have spliced : run env (enter s' i).1 (enter s' i).2 = (some e, s'') := congrArg Subtype.val hr
    rw [run_of_splice step, spliced] at h
    cases h
  | case5 f s i ends f' s' _ hk s'' _ hr _ ih ih' =>
    intro t h
    have step : step env f s = (.splice i ends f', s') := congrArg Subtype.val hk
    have spliced : run env (enter s' i).1 (enter s' i).2 = (none, s'') := congrArg Subtype.val hr
    rw [run_of_splice step, spliced] at h
    exact .splice step (ih s'' spliced) (ih' t h)

/-- **A run that does not fail is one of these.** -/
theorem runs_iff : Runs env x t ↔ x.run env = (none, t) :=
  ⟨run_of_runs, runs_of_run_pair x.frame x.state t⟩

theorem advances_unique : Relator.RightUnique (Advances env) := by
  intro x y z hy hz
  cases hy with
  | next step =>
    cases hz with
    | next step' =>
      cases step.symm.trans step'
      rfl
    | splice step' _ => cases step.symm.trans step'
  | splice step run =>
    cases hz with
    | next step' => cases step.symm.trans step'
    | splice step' run' =>
      cases step.symm.trans step'
      cases run.symm.trans run'
      rfl

/-- An activation goes on from a point as its step does. -/
theorem reach_of_next {f' : Frame} (step : x.step env = (.next f', s'))
    (h : ReflTransGen (Advances env) x y) : y = x ∨ ReflTransGen (Advances env) ⟨f', s'⟩ y := by
  rcases ReflTransGen.cases_head h with rfl | ⟨z, hxz, hzy⟩
  · exact .inl rfl
  · exact .inr (advances_unique hxz (.next step) ▸ hzy)

/-- An activation does not go on where its unit ends. -/
theorem eq_of_reach_finished (step : x.step env = (.finished, t))
    (h : ReflTransGen (Advances env) x y) : y = x := by
  rcases ReflTransGen.cases_head h with rfl | ⟨z, hxz, -⟩
  · rfl
  · cases hxz with
    | next step' | splice step' => cases step.symm.trans step'

/-- The rest of an activation is the same from each of its points. -/
theorem runs_of_advances (h : Advances env x y) (hx : Runs env x t) : Runs env y t := by
  cases hx with
  | finish step => cases h with
    | next step' => cases step.symm.trans step'
    | splice step' _ => cases step.symm.trans step'
  | next step rest => cases h with
    | next step' =>
      cases step.symm.trans step'
      exact rest
    | splice step' _ => cases step.symm.trans step'
  | splice step spliced rest => cases h with
    | next step' => cases step.symm.trans step'
    | splice step' run =>
      cases step.symm.trans step'
      cases (run_of_runs spliced).symm.trans run
      exact rest

theorem runs_of_reach (h : ReflTransGen (Advances env) x y) (hx : Runs env x t) : Runs env y t := by
  induction h with
  | refl => exact hx
  | tail _ hyz ih => exact runs_of_advances hyz ih

/-! ## Nothing that has been put out is lost -/

/-- All that a state has put out and read is still there in another. -/
structure State.Grows (s s' : State) : Prop where
  emitted : s.emitted.toList <+: s'.emitted.toList
  units : s.units.toList <+: s'.units.toList

namespace State

theorem Grows.refl (s : State) : s.Grows s := ⟨List.prefix_refl _, List.prefix_refl _⟩

theorem Grows.trans (h : s.Grows s') (h' : s'.Grows s'') : s.Grows s'' :=
  ⟨h.emitted.trans h'.emitted, h.units.trans h'.units⟩

theorem Adds.grows {es : List Emission} (h : s.Adds es s') (hunits : s'.units = s.units) :
    s.Grows s' := ⟨⟨es, h.symm⟩, hunits ▸ List.prefix_refl _⟩

theorem Grows.unit (h : s.Grows s') {k : Nat} {u : Source.Unit} (hu : s.units[k]? = some u) :
    s'.units[k]? = some u := by
  rw [← Array.getElem?_toList] at hu ⊢
  obtain ⟨more, hmore⟩ := h.units
  rw [← hmore, List.getElem?_append_left (List.getElem?_eq_some_iff.1 hu).1, hu]

theorem Adds.size {es : List Emission} (h : s.Adds es s') :
    s'.size = s.size + Piece.size (es.map Emission.piece) := by
  rw [State.size, pieces, h, List.map_append, Piece.size_append]
  rfl

theorem Grows.size (h : s.Grows s') : s.size ≤ s'.size := by
  obtain ⟨es, hes⟩ := h.emitted
  have hadds : s.Adds es s' := hes.symm
  rw [hadds.size]
  omega

theorem grows_entry (s : State) (i : Inclusion) : s.Grows (s.entry i).state := by
  refine ⟨List.prefix_refl _, ?_⟩
  show s.units.toList <+: (Source.addUnit s.units ⟨i.path, i.text⟩).2.toList
  unfold Source.addUnit
  split
  next => exact List.prefix_refl _
  next =>
    rw [Array.toList_push]
    exact List.prefix_append _ _

end State

/-- A unit that is added is found at the index it is given. -/
theorem getElem?_addUnit (units : Array Source.Unit) (u : Source.Unit) :
    (Source.addUnit units u).2[(Source.addUnit units u).1]? = some u := by
  unfold Source.addUnit
  split
  next k hk =>
    obtain ⟨us⟩ := units
    rw [List.idxOf?_toArray, List.idxOf?_eq_some_iff] at hk
    obtain ⟨hlt, heq, -⟩ := hk
    exact List.getElem?_toArray.trans (List.getElem?_eq_some_iff.2 ⟨hlt, heq⟩)
  next => exact Array.getElem?_push_size

/-- The beginning of a unit is placed in its text. -/
theorem placed_begin (s : State) (name text directory : String) :
    (begin s name text directory).1.Placed (begin s name text directory).2 text := by
  exact ⟨getElem?_addUnit s.units ⟨name, text⟩, Lexeme.Cursor.in_ofString text,
    fun t ht => absurd ht List.not_mem_nil, .nil, fun t ht => absurd ht List.not_mem_nil,
    fun hne => absurd rfl hne⟩

theorem placed_entry (s : State) (i : Inclusion) :
    (s.entry i).frame.Placed (s.entry i).state i.text := placed_begin s i.path i.text _

/-- A run only adds to what has been put out. -/
theorem grows_of_runs (h : Runs env x t) : ∀ {text}, x.frame.Placed x.state text →
    x.state.Grows t := by
  induction h with
  | finish step =>
    intro text hx
    obtain ⟨es, hadds, -⟩ := placed_finished hx step
    exact hadds.grows (step_finished step).1
  | next step _ ih =>
    intro text hx
    obtain ⟨hplaced, es, hadds, -⟩ := placed_next hx step
    exact (hadds.grows (step_next step).2.units).trans (ih hplaced)
  | @splice x f' s' s'' t i ends step _ _ ih ih' =>
    intro text hx
    obtain ⟨hplaced, -, es, mid, hadds, -⟩ := placed_splice hx step
    have grows := (s'.grows_entry i).trans (ih (placed_entry s' i))
    have growsEnds := (s''.adds_emitLineEnds x.frame.unit ends).grows
      (State.SamePlace.emitLineEnds s'' _ _).units
    have hunits := (grows.trans growsEnds).units
    exact (hadds.grows (step_splice step).2.1.units).trans
      ((grows.trans growsEnds).trans (ih' (hplaced _ hunits)))

/-! ## Points that are reached -/

theorem State.Grows.emitLineEnds (h : s.Grows s') (unit : Nat) (ends : List Nat) :
    s.Grows (s'.emitLineEnds unit ends) :=
  h.trans ((s'.adds_emitLineEnds unit ends).grows (State.SamePlace.emitLineEnds s' _ _).units)

/-- **An activation stays in its unit**, and loses nothing. -/
theorem placed_advances {text : String} (h : Advances env x y)
    (hx : x.frame.Placed x.state text) : y.frame.Placed y.state text ∧ x.state.Grows y.state := by
  cases h with
  | next step =>
    obtain ⟨hplaced, es, hadds, -⟩ := placed_next hx step
    exact ⟨hplaced, hadds.grows (step_next step).2.units⟩
  | @splice f' s' s'' i ends step run =>
    obtain ⟨hplaced, -, es, mid, hadds, -⟩ := placed_splice hx step
    have spliced := grows_of_runs (runs_iff.2 run) (placed_entry s' i)
    have grows := ((s'.grows_entry i).trans spliced).emitLineEnds x.frame.unit ends
    exact ⟨hplaced _ grows.units, (hadds.grows (step_splice step).2.1.units).trans grows⟩

theorem placed_reach {text : String} (h : ReflTransGen (Advances env) x y)
    (hx : x.frame.Placed x.state text) : y.frame.Placed y.state text ∧ x.state.Grows y.state := by
  induction h with
  | refl => exact ⟨hx, .refl _⟩
  | tail _ hyz ih =>
    obtain ⟨hy, hxy⟩ := ih
    obtain ⟨hz, hyz⟩ := placed_advances hyz hy
    exact ⟨hz, hxy.trans hyz⟩

/-- Where a step of a run that does not fail asks for a text, the run of that text does not fail
either, and loses nothing. -/
theorem runs_entry {f' : Frame} {i : Inclusion} {ends : List Nat} {text : String}
    (h : Runs env x t) (hx : x.frame.Placed x.state text)
    (step : x.step env = (.splice i ends f', s')) :
    ∃ s'', Runs env (s'.entry i) s'' ∧ s''.Grows t := by
  cases h with
  | finish step' => cases step.symm.trans step'
  | next step' => cases step.symm.trans step'
  | splice step' spliced rest =>
    cases step.symm.trans step'
    have grows := (s'.grows_entry i).trans (grows_of_runs spliced (placed_entry s' i))
    have hrest := (placed_splice hx step).1 _ (grows.emitLineEnds x.frame.unit ends).units
    exact ⟨_, spliced, ((State.Grows.refl _).emitLineEnds _ ends).trans (grows_of_runs rest hrest)⟩

/-- A point of a run that ends in the state `t`: it is placed in its text, and the run from it to the
end of its unit does not fail and loses nothing. -/
structure Completes (env : Settings) (a : Point) (t : State) : Prop where
  placed : ∃ text, a.frame.Placed a.state text
  runs : ∃ s, Runs env a s ∧ s.Grows t

theorem completes_of_splices (h : Splices env a b) (ha : Completes env a t) : Completes env b t := by
  obtain ⟨advances, step⟩ := h
  obtain ⟨⟨text, hplaced⟩, s, hruns, hgrows⟩ := ha
  have hx := (placed_reach advances hplaced).1
  obtain ⟨s'', hs'', hgrows'⟩ := runs_entry (runs_of_reach advances hruns) hx step
  exact ⟨⟨_, placed_entry _ _⟩, s'', hs'', hgrows'.trans hgrows⟩

theorem completes_of_activated (h : Activated env root a) (hroot : Completes env root t) :
    Completes env a t := by
  induction h with
  | refl => exact hroot
  | tail _ hbc ih => exact completes_of_splices hbc ih

/-- Every point that is reached is placed in its text, and the run from it loses nothing. -/
theorem completes_of_reached (h : Reached env root x) (hroot : Completes env root t) :
    Completes env x t := by
  obtain ⟨a, hactivated, hreach⟩ := h
  obtain ⟨⟨text, hplaced⟩, s, hruns, hgrows⟩ := completes_of_activated hactivated hroot
  exact ⟨⟨text, (placed_reach hreach hplaced).1⟩, s, runs_of_reach hreach hruns, hgrows⟩

/-! ## Each byte is put out at a point that is reached -/

theorem writes_of_adds {es : List Emission} {start i : Nat} (hputs : Puts env x start es)
    (hi : start ≤ i) (hi' : i < start + Piece.size (es.map Emission.piece)) :
    ∃ e k, Writes env x i e k := by
  have hlt : i - start < Piece.size (es.map Emission.piece) := by omega
  obtain ⟨p, k, hat, hmem, -⟩ := Piece.exists_at? hlt
  obtain ⟨e, he, rfl⟩ := List.mem_map.1 hmem
  exact ⟨e, k, start, es, hputs, he, hi, hat⟩

/-- The activation that begins at `a` puts out a byte, or one of those in the course of it does. -/
def PutsOut (env : Settings) (a : Point) (i : Nat) : Prop :=
  ∃ x, Reached env a x ∧ ∃ e k, Writes env x i e k

theorem PutsOut.of_splices {i : Nat} (h : Splices env a b) (hb : PutsOut env b i) :
    PutsOut env a i := by
  obtain ⟨x, ⟨c, hbc, hcx⟩, hwrites⟩ := hb
  exact ⟨x, ⟨c, .head h hbc, hcx⟩, hwrites⟩

/-- **Each byte that a run adds is put out at one of its points.** -/
theorem reached_of_runs (h : Runs env x t) : ∀ {a text}, ReflTransGen (Advances env) a x →
    x.frame.Placed x.state text → ∀ i, x.state.size ≤ i → i < t.size → PutsOut env a i := by
  induction h with
  | finish step =>
    intro a text ha hx i hi hi'
    obtain ⟨es, hadds, -⟩ := placed_finished hx step
    exact ⟨_, ⟨a, .refl, ha⟩, writes_of_adds (.step step hadds) hi (hadds.size ▸ hi')⟩
  | @next x f' s' t step rest ih =>
    intro a text ha hx i hi hi'
    obtain ⟨hplaced, es, hadds, -⟩ := placed_next hx step
    by_cases hlt : i < s'.size
    · exact ⟨_, ⟨a, .refl, ha⟩, writes_of_adds (.step step hadds) hi (hadds.size ▸ hlt)⟩
    · exact ih (ha.tail (.next step)) hplaced i (Nat.le_of_not_lt hlt) hi'
  | @splice x f' s' s'' t inclusion ends step spliced rest ih ih' =>
    intro a text ha hx i hi hi'
    obtain ⟨hplaced, -, es, mid, hadds, -⟩ := placed_splice hx step
    have run := run_of_runs spliced
    have grows := (s'.grows_entry inclusion).trans
      (grows_of_runs spliced (placed_entry s' inclusion))
    have hends := s''.adds_emitLineEnds x.frame.unit ends
    by_cases hstep : i < s'.size
    · exact ⟨_, ⟨a, .refl, ha⟩, writes_of_adds (.step step hadds) hi (hadds.size ▸ hstep)⟩
    by_cases hspliced : i < s''.size
    · exact .of_splices ⟨ha, step⟩
        (ih .refl (placed_entry s' inclusion) i (Nat.le_of_not_lt hstep) hspliced)
    by_cases hline : i < (s''.emitLineEnds x.frame.unit ends).size
    · exact ⟨_, ⟨a, .refl, ha⟩, writes_of_adds (.lineEnds step run) (Nat.le_of_not_lt hspliced)
        (hends.size ▸ hline)⟩
    · exact ih' (ha.tail (.splice step run))
        (hplaced _ (grows.emitLineEnds x.frame.unit ends).units) i (Nat.le_of_not_lt hline) hi'

/-! ## What has been put out stays where it is -/

theorem State.Grows.at? {i : Nat} {r : Piece × Nat} (h : s.Grows s')
    (hr : Piece.at? s.pieces i = some r) (hi : i < s.size) : Piece.at? s'.pieces i = some r := by
  obtain ⟨es, hes⟩ := h.emitted
  rw [State.pieces, ← hes, List.map_append, Piece.at?_append]
  exact (if_pos hi).trans hr

theorem State.Adds.at? {es : List Emission} {i : Nat} (h : s.Adds es s') (hi : s.size ≤ i) :
    Piece.at? s'.pieces i = Piece.at? (es.map Emission.piece) (i - s.size) := by
  rw [State.pieces, h, List.map_append, Piece.at?_append]
  exact if_neg (Nat.not_lt_of_le hi)

/-- What is put out at a point is put out after what was there before, and stays. -/
theorem adds_of_puts {start : Nat} {es : List Emission} {text : String} (hputs : Puts env x start es)
    (hx : x.frame.Placed x.state text) (h : Runs env x t) :
    ∃ s s' : State, s.size = start ∧ s.Adds es s' ∧ s'.Grows t := by
  cases hputs with
  | @step o s' es step adds =>
    refine ⟨_, s', rfl, adds, ?_⟩
    cases h with
    | finish step' =>
      cases step.symm.trans step'
      exact .refl _
    | next step' rest =>
      cases step.symm.trans step'
      exact grows_of_runs rest (placed_next hx step').1
    | splice step' spliced rest =>
      cases step.symm.trans step'
      have hruns : Runs env x t := .splice step' spliced rest
      obtain ⟨s'', hs'', hgrows⟩ := runs_entry hruns hx step'
      exact ((s'.grows_entry _).trans (grows_of_runs hs'' (placed_entry s' _))).trans hgrows
  | @lineEnds f' s' s'' i ends step run =>
    refine ⟨s'', _, rfl, s''.adds_emitLineEnds x.frame.unit ends, ?_⟩
    have advances : Advances env x ⟨f', s''.emitLineEnds x.frame.unit ends⟩ := .splice step run
    exact grows_of_runs (runs_of_advances advances h) (placed_advances advances hx).1

/-- **A byte put out at a point is that byte of the output at the end.** -/
theorem at?_of_writes {i k : Nat} {e : Emission} (hx : Completes env x t)
    (hwrites : Writes env x i e k) : Piece.at? t.pieces i = some (e.piece, k) ∧ i < t.size := by
  obtain ⟨⟨text, hplaced⟩, s, hruns, hgrows⟩ := hx
  obtain ⟨start, es, hputs, -, hi, hat⟩ := hwrites
  obtain ⟨s₁, s₂, rfl, hadds, hgrows'⟩ := adds_of_puts hputs hplaced hruns
  have hlt : i < s₂.size := by
    have hlt := Piece.lt_size_of_at? hat
    rw [hadds.size]
    omega
  have hgrows := hgrows'.trans hgrows
  exact ⟨hgrows.at? ((hadds.at? hi).trans hat) hlt, Nat.lt_of_lt_of_le hlt hgrows.size⟩

/-! ## What is put out comes from the unit of the activation, in order -/

theorem State.Adds.unique {es es' : List Emission} (h : s.Adds es s') (h' : s.Adds es' s') :
    es = es' := List.append_cancel_left (h.symm.trans h')

/-- What is put out at a point is given by its step, and comes in order from places between the mark
and that of the next point. -/
theorem ordered_of_puts {start : Nat} {es : List Emission} {text : String}
    (hputs : Puts env x start es) (hx : x.frame.Placed x.state text) (h : Runs env x t) :
    (∀ e ∈ es, Gives x.frame x.state e) ∧ ∃ hi,
      Piece.Ordered x.frame.unit x.frame.mark hi (es.map Emission.piece) ∧
      ∀ y, Advances env x y → hi ≤ y.frame.mark := by
  cases hputs with
  | @step o s' es step adds =>
    cases h with
    | finish step' =>
      cases step.symm.trans step'
      obtain ⟨es', hadds, hgives, hordered⟩ := placed_finished hx step
      rw [adds.unique hadds]
      refine ⟨hgives, _, hordered, fun y hy => ?_⟩
      cases hy with
      | next step' => cases step.symm.trans step'
      | splice step' => cases step.symm.trans step'
    | next step' rest =>
      cases step.symm.trans step'
      obtain ⟨-, es', hadds, hgives, hordered⟩ := placed_next hx step
      rw [adds.unique hadds]
      refine ⟨hgives, _, hordered, fun y hy => ?_⟩
      exact Nat.le_of_eq (by rw [advances_unique hy (.next step)])
    | splice step' spliced rest =>
      cases step.symm.trans step'
      obtain ⟨-, -, es', mid, hadds, hgives, hordered, hends⟩ := placed_splice hx step
      rw [adds.unique hadds]
      refine ⟨hgives, _, hordered, fun y hy => ?_⟩
      rw [advances_unique hy (.splice step (run_of_runs spliced))]
      exact hends.le
  | lineEnds step run =>
    obtain ⟨-, hgives, es', mid, -, -, hordered, hends⟩ := placed_splice hx step
    refine ⟨hgives, _, (Piece.Ordered.nil hordered.le).append hends, fun y hy => ?_⟩
    exact Nat.le_of_eq (by rw [advances_unique hy (.splice step run)])

/-- An activation stays in the unit, and on the chain, that it begins with. -/
theorem same_of_advances (h : Advances env x y) : y.frame.unit = x.frame.unit ∧
    y.frame.name = x.frame.name ∧ y.state.chain = x.state.chain := by
  cases h with
  | next step =>
    obtain ⟨after, same⟩ := step_next step
    exact ⟨after.unit, after.name, same.chain⟩
  | @splice f' s' s'' i ends step run =>
    obtain ⟨after, same, -⟩ := step_splice step
    have left : s''.chain = s'.chain := chain_run run
    have ends := (State.SamePlace.emitLineEnds s'' x.frame.unit ends).chain
    exact ⟨after.unit, after.name, (ends.trans left).trans same.chain⟩

theorem same_of_reach (h : ReflTransGen (Advances env) x y) : y.frame.unit = x.frame.unit ∧
    y.frame.name = x.frame.name ∧ y.state.chain = x.state.chain := by
  induction h with
  | refl => exact ⟨rfl, rfl, rfl⟩
  | tail _ hyz ih =>
    obtain ⟨hunit, hname, hchain⟩ := same_of_advances hyz
    exact ⟨hunit.trans ih.1, hname.trans ih.2.1, hchain.trans ih.2.2⟩

/-! ## The run of a source -/

namespace Session

/-- The beginning of the run of a source. -/
def entry (p : Session) (source : String) : Point :=
  ⟨(begin p.state.clear p.rootUnit source p.basePath).1,
    (begin p.state.clear p.rootUnit source p.basePath).2⟩

/-- A source that is accepted is run to the end, and its output is that of the state there. -/
theorem runs_of_tryProcess {p : Session} {source output : String}
    (h : (p.tryProcess source).1 = .ok output) :
    Runs p.settings (p.entry source) (p.tryProcess source).2.2.state ∧
      output = (p.tryProcess source).2.2.state.output := by
  have run : p.runSource source = (p.entry source).run p.settings := rfl
  rw [tryProcess, run] at h ⊢
  obtain ⟨⟨e, t⟩, hr⟩ : ∃ r, (p.entry source).run p.settings = r := ⟨_, rfl⟩
  rw [hr] at h ⊢
  cases e with
  | some e => cases h
  | none => exact ⟨runs_iff.2 hr, (Except.ok.inj h).symm⟩

/-- The output and the source map of a source that is accepted are those of the state at the end. -/
theorem completes_of_tryProcess {p : Session} {source output : String}
    (h : (p.tryProcess source).1 = .ok output) : ∃ t, Runs p.settings (p.entry source) t ∧
      Completes p.settings (p.entry source) t ∧ output = t.output ∧
      (p.tryProcess source).2.2.sourceMap = t.sourceMap := by
  obtain ⟨runs, houtput⟩ := runs_of_tryProcess h
  exact ⟨_, runs, ⟨⟨source, placed_begin _ _ _ _⟩, _, runs, .refl _⟩, houtput, rfl⟩

/-- Each byte of the output of a source is put out at a point of its run. -/
theorem putsOut_entry {p : Session} {source : String} {t : State} {i : Nat}
    (h : Runs p.settings (p.entry source) t) (hi : i < t.size) :
    PutsOut p.settings (p.entry source) i :=
  reached_of_runs h .refl (placed_begin p.state.clear p.rootUnit source p.basePath) i
    (Nat.zero_le i) hi

end Session

end ShaderPass.Preprocess
