import Mathlib
import ShaderPass.Proofs.Preprocess.Activation

/-!
# Proofs/Preprocess/SourceOrder — each activation puts its unit out in order

    output   ── a ──┬── b ──┬── a ──
    offset   o₁ ≤ o₂│       │o₃ ≤ o₄        o₂ ≤ o₃, all in the unit of a

What an activation puts out by itself comes from its own unit, at offsets that do not decrease, since
each step puts out what lies between its mark and the next (`offset_le_of_writes`).  A text that is
spliced in is never the one being read, so what it puts out comes from elsewhere
(`unit_ne_of_nested`).
-/

namespace ShaderPass.Preprocess

open Relation (ReflTransGen TransGen)
open Source (Piece)

variable {env : Settings} {x y a b root : Point} {s s' t : State}

/-- Whether a byte of the output is put out by the activation that begins at `a` itself. -/
def Owns (env : Settings) (a : Point) (i : Nat) : Prop :=
  ∃ x, ReflTransGen (Advances env) a x ∧ ∃ e k, Writes env x i e k

/-! ## The mark and the output move on together -/

theorem mark_le_of_advances {text : String} (h : Advances env x y)
    (hx : x.frame.Placed x.state text) : x.frame.mark ≤ y.frame.mark := by
  cases h with
  | next step =>
    obtain ⟨-, es, -, -, hordered⟩ := placed_next hx step
    exact hordered.le
  | splice step run =>
    obtain ⟨-, -, es, mid, -, -, hordered, hends⟩ := placed_splice hx step
    exact Nat.le_trans hordered.le hends.le

theorem mark_le_of_reach {text : String} (h : ReflTransGen (Advances env) x y)
    (hx : x.frame.Placed x.state text) : x.frame.mark ≤ y.frame.mark := by
  induction h with
  | refl => exact Nat.le_refl _
  | tail hxy hyz ih => exact Nat.le_trans ih (mark_le_of_advances hyz (placed_reach hxy hx).1)

/-- All that is put out at a point is put out before the next one. -/
theorem size_of_puts {start : Nat} {es : List Emission} (hputs : Puts env x start es)
    (h : Advances env x y) : start + Piece.size (es.map Emission.piece) ≤ y.state.size := by
  cases hputs with
  | step step adds =>
    rw [← adds.size]
    cases h with
    | next step' =>
      cases step.symm.trans step'
      exact Nat.le_refl _
    | splice step' run =>
      cases step.symm.trans step'
      have grows := (State.grows_entry _ _).trans
        (grows_of_runs (runs_iff.2 run) (placed_entry _ _))
      exact (grows.emitLineEnds x.frame.unit _).size
  | lineEnds step run =>
    refine Nat.le_of_eq ?_
    rw [advances_unique h (.splice step run), ← (State.adds_emitLineEnds _ x.frame.unit _).size]

/-- What is put out at a point is put out after what was there before it. -/
theorem le_of_puts {start : Nat} {es : List Emission} {text : String} (hputs : Puts env x start es)
    (hx : x.frame.Placed x.state text) : x.state.size ≤ start := by
  cases hputs with
  | step => exact Nat.le_refl _
  | @lineEnds f' s' s'' i ends step run =>
    obtain ⟨-, -, es, mid, hadds, -⟩ := placed_splice hx step
    have spliced := grows_of_runs (runs_iff.2 run) (placed_entry s' i)
    have grows := ((hadds.grows (step_splice step).2.1.units).trans (s'.grows_entry i)).trans spliced
    exact grows.size

/-! ## Offsets do not decrease -/

theorem Writes.bounds {i k : Nat} {e : Emission} {start : Nat} {es : List Emission} (hi : start ≤ i)
    (hat : Piece.at? (es.map Emission.piece) (i - start) = some (e.piece, k)) :
    i < start + Piece.size (es.map Emission.piece) := by
  have hlt := Piece.lt_size_of_at? hat
  omega

/-- At one point, the bytes put out come from places in the order of the output. -/
theorem offset_le_of_writes_same {i j k l : Nat} {e e' : Emission} {text : String}
    (hi : Writes env x i e k) (hj : Writes env x j e' l) (hij : i ≤ j)
    (hx : x.frame.Placed x.state text) (h : Runs env x t) :
    e.piece.offsetAt k ≤ e'.piece.offsetAt l := by
  obtain ⟨start, es, hputs, hmem, hstart, hat⟩ := hi
  obtain ⟨start', es', hputs', hmem', hstart', hat'⟩ := hj
  have hk := (Piece.mem_of_at? hat).2
  have hl := (Piece.mem_of_at? hat').2
  cases hputs with
  | @step o s' _ step adds =>
    cases hputs' with
    | step step' adds' =>
      cases step.symm.trans step'
      obtain rfl := adds.unique adds'
      obtain ⟨-, hi, hordered, -⟩ := ordered_of_puts (.step step adds) hx h
      exact hordered.offsetAt_le hat hat' (Nat.sub_le_sub_right hij _)
    | lineEnds step' run =>
      cases step.symm.trans step'
      obtain ⟨-, -, es₀, mid, hadds, -, hordered, hends⟩ := placed_splice hx step
      obtain rfl := adds.unique hadds
      exact Nat.le_trans (hordered.offsetAt_bounds (List.mem_map_of_mem hmem) hk).2
        (hends.offsetAt_bounds (List.mem_map_of_mem hmem') hl).1
  | @lineEnds f' s' s'' inclusion ends step run =>
    cases hputs' with
    | step step' adds' =>
      cases step.symm.trans step'
      have hlt := Writes.bounds hstart' hat'
      have spliced := grows_of_runs (runs_iff.2 run) (placed_entry s' inclusion)
      have hsize := ((s'.grows_entry inclusion).trans spliced).size
      rw [← adds'.size] at hlt
      exact absurd (Nat.lt_of_lt_of_le hlt hsize) (Nat.not_lt_of_le (Nat.le_trans hstart hij))
    | lineEnds step' run' =>
      cases step.symm.trans step'
      cases run.symm.trans run'
      obtain ⟨-, hi, hordered, -⟩ := ordered_of_puts (.lineEnds step run) hx h
      exact hordered.offsetAt_le hat hat' (Nat.sub_le_sub_right hij _)

/-- From one point of an activation to a later one, the bytes put out come from places in order. -/
theorem offset_le_of_writes_later {i j k l : Nat} {e e' : Emission} {text : String}
    (hi : Writes env x i e k) (hj : Writes env y j e' l) {z : Point} (hxz : Advances env x z)
    (hzy : ReflTransGen (Advances env) z y) (hx : x.frame.Placed x.state text) (h : Runs env x t) :
    e.piece.offsetAt k ≤ e'.piece.offsetAt l := by
  obtain ⟨start, es, hputs, hmem, hstart, hat⟩ := hi
  obtain ⟨start', es', hputs', hmem', hstart', hat'⟩ := hj
  have hz := (placed_advances hxz hx).1
  have hruns := runs_of_advances hxz h
  obtain ⟨-, stop, hordered, hmark⟩ := ordered_of_puts hputs hx h
  obtain ⟨-, stop', hordered', -⟩ :=
    ordered_of_puts hputs' (placed_reach hzy hz).1 (runs_of_reach hzy hruns)
  calc e.piece.offsetAt k
      ≤ stop := (hordered.offsetAt_bounds (List.mem_map_of_mem hmem) (Piece.mem_of_at? hat).2).2
    _ ≤ z.frame.mark := hmark z hxz
    _ ≤ y.frame.mark := mark_le_of_reach hzy hz
    _ ≤ e'.piece.offsetAt l :=
      (hordered'.offsetAt_bounds (List.mem_map_of_mem hmem') (Piece.mem_of_at? hat').2).1

/-- What is put out at a later point of an activation is put out later. -/
theorem lt_of_writes_later {i j k l : Nat} {e e' : Emission} {text : String}
    (hi : Writes env x i e k) (hj : Writes env y j e' l) {z : Point} (hxz : Advances env x z)
    (hzy : ReflTransGen (Advances env) z y) (hx : x.frame.Placed x.state text) : i < j := by
  obtain ⟨start, es, hputs, -, hstart, hat⟩ := hi
  obtain ⟨start', es', hputs', -, hstart', -⟩ := hj
  obtain ⟨hz, -⟩ := placed_advances hxz hx
  obtain ⟨hy, hgrows⟩ := placed_reach hzy hz
  calc i < start + Piece.size (es.map Emission.piece) := Writes.bounds hstart hat
    _ ≤ z.state.size := size_of_puts hputs hxz
    _ ≤ y.state.size := hgrows.size
    _ ≤ start' := le_of_puts hputs' hy
    _ ≤ j := hstart'

/-- **The bytes that an activation puts out itself come from places in the order of the output.** -/
theorem offset_le_of_writes {i j k l : Nat} {e e' : Emission} {text : String}
    (hax : ReflTransGen (Advances env) a x) (hay : ReflTransGen (Advances env) a y)
    (hi : Writes env x i e k) (hj : Writes env y j e' l) (hij : i ≤ j)
    (ha : a.frame.Placed a.state text) (h : Runs env a t) :
    e.piece.offsetAt k ≤ e'.piece.offsetAt l := by
  have hx := (placed_reach hax ha).1
  have hy := (placed_reach hay ha).1
  rcases ReflTransGen.total_of_right_unique advances_unique hax hay with hxy | hyx
  · rcases ReflTransGen.cases_head hxy with rfl | ⟨z, hxz, hzy⟩
    · exact offset_le_of_writes_same hi hj hij hx (runs_of_reach hax h)
    · exact offset_le_of_writes_later hi hj hxz hzy hx (runs_of_reach hax h)
  · rcases ReflTransGen.cases_head hyx with rfl | ⟨z, hyz, hzx⟩
    · exact offset_le_of_writes_same hi hj hij hx (runs_of_reach hax h)
    · exact absurd (lt_of_writes_later hj hi hyz hzx hy) (Nat.not_lt_of_le hij)

/-! ## Units that are nested -/

/-- A text that is spliced in is new to the chain of the activation, and on its own. -/
theorem chain_of_splices (h : Splices env a b) :
    b.state.chain = b.frame.name :: a.state.chain ∧ b.frame.name ∉ a.state.chain := by
  obtain ⟨advances, step⟩ := h
  obtain ⟨-, -, hchain⟩ := same_of_reach advances
  obtain ⟨-, same, fresh⟩ := step_splice step
  have hchain := same.chain.trans hchain
  exact ⟨congrArg (List.cons _) hchain, hchain ▸ fresh.offChain⟩

/-- All that is spliced in, at any depth, is new to the chain. -/
theorem chain_of_nested (h : TransGen (Splices env) a b) :
    b.frame.name ∉ a.state.chain ∧ ∀ name ∈ a.state.chain, name ∈ b.state.chain := by
  induction h with
  | single h =>
    obtain ⟨hchain, hnew⟩ := chain_of_splices h
    exact ⟨hnew, fun name hname => hchain ▸ List.mem_cons_of_mem _ hname⟩
  | tail _ h ih =>
    obtain ⟨hchain, hnew⟩ := chain_of_splices h
    exact ⟨fun hmem => hnew (ih.2 _ hmem),
      fun name hname => hchain ▸ List.mem_cons_of_mem _ (ih.2 name hname)⟩

/-- The unit of an activation is on its chain. -/
theorem name_mem_chain (h : Activated env root a) (hroot : root.frame.name ∈ root.state.chain) :
    a.frame.name ∈ a.state.chain := by
  rcases ReflTransGen.cases_tail h with rfl | ⟨b, -, hba⟩
  · exact hroot
  · rw [(chain_of_splices hba).1]
    exact List.mem_cons_self

theorem Completes.unit (h : Completes env x t) :
    ∃ text, t.units[x.frame.unit]? = some ⟨x.frame.name, text⟩ := by
  obtain ⟨⟨text, hplaced⟩, s, hruns, hgrows⟩ := h
  exact ⟨text, ((grows_of_runs hruns hplaced).trans hgrows).unit hplaced.unit⟩

/-- **What is spliced into an activation, at any depth, is of another unit.** -/
theorem unit_ne_of_nested (h : TransGen (Splices env) a b) (hname : a.frame.name ∈ a.state.chain)
    (ha : Completes env a t) (hb : Completes env b t) : b.frame.unit ≠ a.frame.unit := by
  intro hunit
  obtain ⟨text, ha⟩ := ha.unit
  obtain ⟨text', hb⟩ := hb.unit
  rw [hunit, ha] at hb
  have hsame : a.frame.name = b.frame.name := congrArg Source.Unit.name (Option.some.inj hb)
  exact (chain_of_nested h).1 (hsame ▸ hname)

/-! ## The output of a source -/

/-- A byte that an activation puts out itself is found in its unit. -/
theorem locate_of_writes {i k : Nat} {e : Emission} (ha : Completes env a t)
    (hax : ReflTransGen (Advances env) a x) (hwrites : Writes env x i e k) :
    t.sourceMap.locate i = some (a.frame.unit, e.piece.offsetAt k) := by
  obtain ⟨⟨text, hplaced⟩, s, hruns, hgrows⟩ := ha
  have hx := (placed_reach hax hplaced).1
  have runs := runs_of_reach hax hruns
  obtain ⟨hat, hlt⟩ := at?_of_writes ⟨⟨text, hx⟩, s, runs, hgrows⟩ hwrites
  obtain ⟨start, es, hputs, hmem, -⟩ := hwrites
  obtain ⟨-, hi, hordered, -⟩ := ordered_of_puts hputs hx runs
  rw [State.sourceMap, Source.Map.locate_map t.units hat hlt,
    hordered.unit _ (List.mem_map_of_mem hmem), (same_of_reach hax).1]

/-- **Each activation puts out its own unit, in the order of the unit.**  Each byte of the output of
a source that is accepted is put out by an activation itself.  The bytes that one puts out come from
its unit, and their offsets do not decrease; those of the activations in the course of it come from
other units. -/
theorem Session.activations_in_order {p : Session} {source output : String}
    (h : (p.tryProcess source).1 = .ok output) :
    (∀ i < output.utf8ByteSize,
      ∃ a, Activated p.settings (p.entry source) a ∧ Owns p.settings a i) ∧
    ∀ a, Activated p.settings (p.entry source) a →
      (∀ i, Owns p.settings a i →
        ∃ o, (p.tryProcess source).2.2.sourceMap.locate i = some (a.frame.unit, o)) ∧
      (∀ i j o o', Owns p.settings a i → Owns p.settings a j → i ≤ j →
        (p.tryProcess source).2.2.sourceMap.locate i = some (a.frame.unit, o) →
        (p.tryProcess source).2.2.sourceMap.locate j = some (a.frame.unit, o') → o ≤ o') ∧
      ∀ b, TransGen (Splices p.settings) a b → ∀ i, Owns p.settings b i →
        ∃ unit o, (p.tryProcess source).2.2.sourceMap.locate i = some (unit, o) ∧
          unit ≠ a.frame.unit := by
  obtain ⟨t, runs, completes, rfl, hmap⟩ := completes_of_tryProcess h
  rw [hmap]
  refine ⟨fun i hi => ?_, fun a ha => ⟨fun i hown => ?_, ?_, fun b hab i hown => ?_⟩⟩
  · obtain ⟨x, ⟨a, ha, hax⟩, hwrites⟩ := putsOut_entry runs hi
    exact ⟨a, ha, x, hax, hwrites⟩
  · obtain ⟨x, hax, e, k, hwrites⟩ := hown
    exact ⟨_, locate_of_writes (completes_of_activated ha completes) hax hwrites⟩
  · rintro i j o o' ⟨x, hax, e, k, hi⟩ ⟨y, hay, e', l, hj⟩ hij ho ho'
    have hcompletes := completes_of_activated ha completes
    obtain ⟨-, rfl⟩ := Prod.mk.inj
      (Option.some.inj ((locate_of_writes hcompletes hax hi).symm.trans ho))
    obtain ⟨-, rfl⟩ := Prod.mk.inj
      (Option.some.inj ((locate_of_writes hcompletes hay hj).symm.trans ho'))
    obtain ⟨⟨text, hplaced⟩, s, hruns, -⟩ := hcompletes
    exact offset_le_of_writes hax hay hi hj hij hplaced hruns
  · obtain ⟨x, hbx, e, k, hwrites⟩ := hown
    have hb : Activated p.settings (p.entry source) b := ha.trans hab.to_reflTransGen
    have hname := name_mem_chain ha List.mem_cons_self
    have hcompletes := completes_of_activated hb completes
    exact ⟨_, _, locate_of_writes hcompletes hbx hwrites,
      unit_ne_of_nested hab hname (completes_of_activated ha completes) hcompletes⟩

/-- A unit that splices in another before its own last line.  Each byte is put out by an activation,
and the first one by that of the other unit. -/
theorem Session.activations_in_order_apply :
    let p := Session.new.reset [("a", "x\n")] ""
    let source := "#include \"a\"\ny"
    (p.tryProcess source).1 = .ok "x\n\ny" ∧
      (∀ i < 4, ∃ a, Activated p.settings (p.entry source) a ∧ Owns p.settings a i) ∧
      ∃ a, Activated p.settings (p.entry source) a ∧ Owns p.settings a 0 ∧ a.frame.unit = 1 := by
  intro p source
  have h : (p.tryProcess source).1 = .ok "x\n\ny" := by cbv
  have first : (p.tryProcess source).2.2.sourceMap.locate 0 = some (1, 0) := by cbv
  obtain ⟨owned, each⟩ := Session.activations_in_order h
  obtain ⟨a, activated, owns⟩ := owned 0 (by decide)
  obtain ⟨_, place⟩ := (each a activated).1 0 owns
  have unit : a.frame.unit = 1 := (Prod.mk.inj (Option.some.inj (place.symm.trans first))).1
  exact ⟨h, owned, a, activated, owns, unit⟩

end ShaderPass.Preprocess
