import Mathlib
import ShaderPass.Proofs.Preprocess.Balance
import ShaderPass.Proofs.Preprocess.Extension
import ShaderPass.Proofs.Preprocess.Places

/-!
# Proofs/Preprocess/Causality — what comes later has no effect on what came before

    P        ●──▸●──▸ ⋯ ──▸ x   flush, finished        output o
    P ++ Q   ●──▸●──▸ ⋯ ──▸ x'  flush, # …             output o ⋯

A text P that ends its line and a text Q that begins with a directive are read together as P is read
alone, up to the end of P: each step of the one run is a step of the other, and so are the runs of the
texts spliced in (`runs_withRoot`), along the whole of P (`reach_extend`).  There the tokens that wait
are expanded in both, at the end of P alone and before the directive of Q otherwise, so that the
outputs agree up to there.
-/

namespace ShaderPass

namespace Preprocess

open Lexeme (Cursor EndsLine)
open Macro (Origin)
open Relation (ReflTransGen)
open Source (Piece)

variable {env : Settings} {f f' : Frame} {s s₁ s' t : State} {a x y : Point} {name text : String}

/-! ## States that are rooted in a text -/

/-- A unit is the first that a state has read, and is being read. -/
structure State.Rooted (s : State) (name text : String) : Prop where
  unit : s.units[0]? = some ⟨name, text⟩
  chain : name ∈ s.chain

theorem State.Rooted.of_grows (h : s.Rooted name text) (grows : s.Grows s') (hchain : name ∈ s'.chain) :
    s'.Rooted name text := ⟨grows.unit h.unit, hchain⟩

/-! ## The runs of texts spliced in -/

/-- A point in a longer text. -/
def Point.extend (x : Point) (more : List Char) (u : Source.Unit) : Point :=
  ⟨x.frame.extend more, x.state.withRoot u⟩

theorem Point.extend_nil (x : Point) (u : Source.Unit) :
    x.extend [] u = ⟨x.frame, x.state.withRoot u⟩ := by
  rw [extend, Frame.extend, Cursor.extend_nil]

/-- A text that is new to the chain begins the same way whatever the text of the root is. -/
theorem State.entry_withRoot {i : Inclusion} (h : s.Rooted name text) (hi : i.path ∉ s.chain)
    (text' : String) : (s.withRoot ⟨name, text'⟩).entry i = (s.entry i).extend [] ⟨name, text'⟩ := by
  have hname : name ≠ i.path := fun he => hi (he ▸ h.chain)
  have hne : ∀ text, Source.Unit.mk name text ≠ ⟨i.path, i.text⟩ := fun text he =>
    hname (congrArg Source.Unit.name he)
  have units := Source.addUnit_withRoot h.unit (hne text) (hne text')
  rw [Point.extend_nil]
  simp only [State.entry, enter, begin, State.withRoot, units]

/-- The unit of a text that is new to the chain is not the first. -/
theorem unit_entry_ne {i : Inclusion} (h : s.Rooted name text) (hi : i.path ∉ s.chain) :
    (s.entry i).frame.unit ≠ 0 := by
  intro hzero
  have unit := (placed_entry s i).unit
  have root := (s.grows_entry i).unit h.unit
  rw [hzero, root] at unit
  have same : name = i.path := congrArg Source.Unit.name (Option.some.inj unit)
  exact hi (same ▸ h.chain)

theorem position_withRoot (h : s.units[0]? = some ⟨name, text⟩) {origin : Origin}
    (horigin : origin.unit = 0 → origin.offset ≤ text.utf8ByteSize) (more : String) :
    (s.withRoot ⟨name, text ++ more⟩).position origin = s.position origin := by
  have units := Source.getElem?_withRoot h ⟨name, text ++ more⟩ origin.unit
  simp only [State.position, State.withRoot, Source.positionIn, units]
  by_cases hzero : origin.unit = 0
  · rw [if_pos hzero, hzero, h]
    exact Source.position_append name text more (horigin hzero)
  · rw [if_neg hzero]

theorem State.Rooted.advances {text' : String} (hroot : x.state.Rooted name text)
    (hx : x.frame.Placed x.state text') (h : Advances env x y) : y.state.Rooted name text :=
  hroot.of_grows (placed_advances h hx).2 ((same_of_advances h).2.2 ▸ hroot.chain)

/-- **A text that is spliced in is run the same way whatever the text of the root is.** -/
theorem runs_withRoot (h : Runs env x t) (more : String) : ∀ {text'}, x.frame.Placed x.state text' →
    x.state.Rooted name text → x.frame.unit ≠ 0 →
    Runs env (x.extend [] ⟨name, text ++ more⟩) (t.withRoot ⟨name, text ++ more⟩) := by
  induction h with
  | finish step =>
    intro text' _ _ _
    rw [Point.extend_nil]
    exact .finish (step_withRoot_finished step _)
  | @next x f' s' t step rest ih =>
    intro text' hx hroot hunit
    have hposition : (x.state.withRoot ⟨name, text ++ more⟩).position x.frame.origin = _ :=
      position_withRoot hroot.unit (fun hzero => absurd hzero hunit) more
    have advances : Advances env x ⟨f', s'⟩ := .next step
    exact .next (step_extend_next (.inl rfl) hposition step)
      (ih (placed_advances advances hx).1 (hroot.advances hx advances)
        ((same_of_advances advances).1 ▸ hunit))
  | @splice x f' s' s'' t i ends step spliced rest ih ih' =>
    intro text' hx hroot hunit
    have hposition : (x.state.withRoot ⟨name, text ++ more⟩).position x.frame.origin = _ :=
      position_withRoot hroot.unit (fun hzero => absurd hzero hunit) more
    have advances : Advances env x ⟨f', s''.emitLineEnds x.frame.unit ends⟩ :=
      .splice step (run_of_runs spliced)
    obtain ⟨-, same, fresh⟩ := step_splice step
    have hroot' : s'.Rooted name text := ⟨same.units ▸ hroot.unit, same.chain ▸ hroot.chain⟩
    have entry := State.entry_withRoot hroot' fresh.offChain (text ++ more)
    have spliced' := ih (placed_entry s' i) (hroot'.of_grows (s'.grows_entry i)
      (List.mem_cons_of_mem _ hroot'.chain)) (unit_entry_ne hroot' fresh.offChain)
    have rest' := ih' (placed_advances advances hx).1 (hroot.advances hx advances)
      ((same_of_advances advances).1 ▸ hunit)
    refine .splice (step_extend_splice (.inl rfl) hposition step) (entry ▸ spliced') ?_
    rw [Point.extend, ← State.emitLineEnds_withRoot] at rest'
    exact rest'

/-! ## The run of the root -/

variable (ends : EndsLine text.toList)
include ends

/-- Where more of a text is read, what is left of it ends its line. -/
theorem endsLine_of_after (hx : f.Placed s text) (after : f.After f') :
    EndsLine f.cursor.rest := by
  obtain ⟨pre, hrest, -⟩ := hx.cursor
  refine ends.suffix ⟨pre, hrest.symm⟩ fun hnil => ?_
  have shorter := after.shorter
  rw [hnil] at shorter
  exact Nat.not_lt_zero _ shorter

/-- **The root advances in a longer text as it does in its own.** -/
theorem advances_extend (hx : x.frame.Placed x.state text) (hroot : x.state.Rooted name text)
    (h : Advances env x y) (more : String) :
    Advances env (x.extend more.toList ⟨name, text ++ more⟩)
      (y.extend more.toList ⟨name, text ++ more⟩) := by
  have hposition : (x.state.withRoot ⟨name, text ++ more⟩).position x.frame.origin = _ :=
    position_withRoot hroot.unit (fun _ => hx.cursor.offset_le) more
  cases h with
  | next step =>
    have rest := endsLine_of_after ends hx (step_next step).1
    exact .next (step_extend_next (.inr rest) hposition step)
  | @splice f' s' s'' i lineEnds step run =>
    obtain ⟨after, same, fresh⟩ := step_splice step
    have rest := endsLine_of_after ends hx after
    have hroot' : s'.Rooted name text := ⟨same.units ▸ hroot.unit, same.chain ▸ hroot.chain⟩
    have spliced := runs_withRoot (runs_iff.2 run) more (placed_entry s' i)
      (hroot'.of_grows (s'.grows_entry i) (List.mem_cons_of_mem _ hroot'.chain))
      (unit_entry_ne hroot' fresh.offChain)
    rw [← State.entry_withRoot hroot' fresh.offChain] at spliced
    have step' : (x.extend more.toList ⟨name, text ++ more⟩).step env = _ :=
      step_extend_splice (.inr rest) hposition step
    have advances := Advances.splice step' (run_of_runs spliced)
    rw [State.emitLineEnds_withRoot] at advances
    exact advances

theorem reach_extend (h : ReflTransGen (Advances env) a x) (ha : a.frame.Placed a.state text)
    (hroot : a.state.Rooted name text) (more : String) :
    ReflTransGen (Advances env) (a.extend more.toList ⟨name, text ++ more⟩)
      (x.extend more.toList ⟨name, text ++ more⟩) ∧ x.state.Rooted name text := by
  induction h with
  | refl => exact ⟨.refl, hroot⟩
  | tail hab hbc ih =>
    have hb := (placed_reach hab ha).1
    exact ⟨ih.1.tail (advances_extend ends hb ih.2 hbc more), ih.2.advances hb hbc⟩

/-- The end of a text that ends its line is the start of a line. -/
theorem atLineStart_of_advances (hx : x.frame.Placed x.state text) (h : Advances env x y)
    (hend : y.frame.cursor.rest = []) : y.frame.atLineStart = true := by
  cases h with
  | splice step run =>
    cases step_cases step with
    | splice reads handle => exact reads.atLineStart
  | @next f' s' step =>
    have rest := endsLine_of_after ends hx (step_next step).1
    have lexeme : ∀ {l : Lexeme} {c : Cursor}, AtLexeme x.frame x.state l c → c.rest = [] →
        (x.frame.afterLexeme l c).atLineStart = true := fun {l c} reads hnil => by
      refine if_pos (Decidable.byContradiction fun noNewline => ?_)
      exact Cursor.rest_ne_nil_of_reads rest (Cursor.reads_of_next reads.next) noNewline hnil
    cases step_cases step with
    | directive reads handle => exact reads.atLineStart
    | token reads => exact lexeme reads hend
    | skippedLineEnd reads => exact lexeme reads hend
    | skipped reads => exact lexeme reads hend

theorem atLineStart_of_reach (h : ReflTransGen (Advances env) a x)
    (ha : a.frame.Placed a.state text) (hstart : a.frame.cursor.rest = text.toList)
    (hend : x.frame.cursor.rest = []) : x.frame.atLineStart = true := by
  rcases ReflTransGen.cases_tail h with rfl | ⟨b, hab, hbx⟩
  · exact absurd (hstart.symm.trans hend) ends.ne_nil
  · exact atLineStart_of_advances ends (placed_reach hab ha).1 hbx hend

omit ends

/-- A run that does not fail advances to the end of its unit. -/
theorem exists_finished (h : Runs env a t) :
    ∃ x, ReflTransGen (Advances env) a x ∧ x.step env = (.finished, t) := by
  induction h with
  | finish step => exact ⟨_, .refl, step⟩
  | next step _ ih =>
    obtain ⟨x, reach, finished⟩ := ih
    exact ⟨x, .head (.next step) reach, finished⟩
  | splice step spliced _ _ ih =>
    obtain ⟨x, reach, finished⟩ := ih
    exact ⟨x, .head (.splice step (run_of_runs spliced)) reach, finished⟩

theorem grows_of_handle {origin : Origin} {line : String}
    (h : handle env f origin line s = .ok (.proceed s')) : s.Grows s' := by
  have units := (samePlace_handle h).units
  rcases adds_handle h with adds | ⟨_, _, -, adds⟩
  · exact adds.grows units
  · exact adds.grows units

/-- What is expanded before a directive line is there at the end. -/
theorem grows_of_flush {l : Lexeme} {c : Cursor} {text' : String} (h : Runs env x t)
    (hx : x.frame.Placed x.state text') (hline : x.frame.atLineStart = true)
    (hnext : x.frame.cursor.next x.state.mode = .ok (some (l, c))) (hhash : l.isPunct '#' = true)
    (hflush : flush x.frame x.state = .ok s₁) : s₁.Grows t := by
  have noLexeme : ∀ {l' : Lexeme} {c' : Cursor}, ¬AtLexeme x.frame x.state l' c' := fun reads => by
    cases hnext.symm.trans reads.next
    exact reads.noHash ⟨hline, hhash⟩
  cases id h with
  | finish step =>
    cases step_cases step with
    | finish atEnd => cases hnext.symm.trans atEnd
  | next step rest =>
    have grows := grows_of_runs rest (placed_next hx step).1
    cases step_cases step with
    | directive reads handle =>
      obtain rfl := Except.ok.inj (hflush.symm.trans reads.flush)
      exact ((grows_of_handle handle).emitLineEnds _ _).trans grows
    | token reads | skippedLineEnd reads | skipped reads => exact absurd reads noLexeme
  | splice step spliced rest =>
    obtain ⟨s₂, spliced', grows⟩ := runs_entry h hx step
    cases step_cases step with
    | splice reads handle =>
      obtain rfl := Except.ok.inj (hflush.symm.trans reads.flush)
      exact ((s₁.grows_entry _).trans (grows_of_runs spliced' (placed_entry s₁ _))).trans grows

/-! ## The run of a source -/

/-- At a `#` the next lexeme is that character. -/
theorem exists_hash {c : Cursor} (h : c.rest.head? = some '#') (mode : Lexeme.Mode) :
    ∃ l c', c.next mode = .ok (some (l, c')) ∧ l.isPunct '#' = true := by
  obtain ⟨rest, hrest⟩ := List.head?_eq_some_iff.1 h
  have form : Lexeme.Form.form c.rest = (.punct, 1) :=
    hrest ▸ Lexeme.Form.form_punct (by decide) (by decide) (by decide) (by decide) (by decide)
      (by decide) (by decide) (by decide) rest
  refine ⟨⟨.punct, "#"⟩, c.skip 1, ?_, rfl⟩
  rw [Cursor.next, if_neg (hrest ▸ List.cons_ne_nil _ _), form, hrest]
  rfl

theorem addUnit_empty (u : Source.Unit) : Source.addUnit #[] u = (0, #[u]) := by
  simp [Source.addUnit]

theorem Session.entry_append (p : Session) (P Q : String) : p.entry (P ++ Q) =
    (p.entry P).extend Q.toList ⟨p.rootUnit, P ++ Q⟩ := by
  have cursor : Cursor.ofString (P ++ Q) = (Cursor.ofString P).extend Q.toList := by
    rw [Cursor.ofString, Cursor.extend, String.toList_append]
    rfl
  rw [entry_eq_activation, entry_eq_activation]
  simp only [State.activation, begin, State.clear, Point.extend, Frame.extend, State.withRoot,
    addUnit_empty, cursor]
  rfl

theorem Session.rooted_entry (p : Session) (source : String) :
    (p.entry source).state.Rooted p.rootUnit source := by
  refine ⟨?_, List.mem_cons_self⟩
  simp only [entry, begin, State.clear, addUnit_empty]
  rfl

/-- **All that a text that ends its line puts out is put out by any longer one**, if what comes after
it begins with a directive. -/
theorem Session.grows_append {p : Session} {P Q : String} {t t' : State} (ends : EndsLine P.toList)
    (hash : Q.toList.head? = some '#') (h : Runs p.settings (p.entry P) t)
    (h' : Runs p.settings (p.entry (P ++ Q)) t') :
    (t.withRoot ⟨p.rootUnit, P ++ Q⟩).Grows t' := by
  have placed := placed_begin p.state.clear p.rootUnit P p.basePath
  have placed' := placed_begin p.state.clear p.rootUnit (P ++ Q) p.basePath
  obtain ⟨x, reach, finished⟩ := exists_finished h
  obtain ⟨reach', -⟩ := reach_extend ends reach placed (p.rooted_entry P) Q
  rw [← p.entry_append] at reach'
  have runs := runs_of_reach reach' h'
  have depth : x.frame.depth = 0 := by
    obtain ⟨own, -, depth⟩ :=
      within_reach (within_activation p.state.clear p.rootUnit P p.basePath) reach
    exact depth.symm
  obtain ⟨-, closed⟩ := groups_of_finished finished
  have groups : x.state.groups = [] := List.length_eq_zero_iff.1 (by omega)
  cases step_cases finished with
  | @finish s₁ atEnd hflush _ =>
    have hend := Cursor.next_eq_none atEnd
    have hline := atLineStart_of_reach ends reach placed rfl hend
    have hrest : (x.frame.cursor.extend Q.toList).rest.head? = some '#' := by
      rw [Cursor.extend, hend]
      exact hash
    obtain ⟨l, c, hnext, hhash⟩ := exists_hash hrest x.state.mode
    have grows := grows_of_flush runs (placed_reach reach' placed').1 hline hnext hhash
      (flush_extend hflush _ _)
    exact ⟨grows.emitted, grows.units⟩

theorem State.Grows.output (h : s.Grows s') : ∃ more, s'.output = s.output ++ more := by
  obtain ⟨es, hes⟩ := h.emitted
  refine ⟨Piece.output (es.map Emission.piece), ?_⟩
  rw [State.output, State.pieces, ← hes, List.map_append, Piece.output_append]
  rfl

theorem exists_unit_withRoot {units : Array Source.Unit} {v w : Source.Unit} {k : Nat}
    (h : units[0]? = some v) (hk : units[k]? = some w) (u : Source.Unit) :
    ∃ w', (Source.withRoot units u)[k]? = some w' := by
  rw [Source.getElem?_withRoot h, hk]
  split
  next => exact ⟨u, rfl⟩
  next => exact ⟨w, rfl⟩

theorem State.Grows.position (h : s.Grows s') {o : Origin} {u : Source.Unit}
    (hu : s.units[o.unit]? = some u) : s'.position o = s.position o := by
  simp only [State.position, Source.positionIn, hu, h.unit hu]

/-- **A later directive has no effect on what comes before it.**  If a text that ends its line is
accepted, and so is that text with one that begins with a `#` after it, then the output of the first
is the beginning of the output of both, and each of its bytes has the same position in both. -/
theorem Session.output_prefix_of_append {p : Session} {P Q output output' : String}
    (accepted : (p.tryProcess P).1 = .ok output)
    (accepted' : (p.tryProcess (P ++ Q)).1 = .ok output') (ends : EndsLine P.toList)
    (hash : Q.toList.head? = some '#') :
    (∃ more, output' = output ++ more) ∧ ∀ i < output.utf8ByteSize, ∃ position,
      (p.tryProcess P).2.2.sourceMap.position? i = some position ∧
      (p.tryProcess (P ++ Q)).2.2.sourceMap.position? i = some position := by
  obtain ⟨t, runs, -, rfl, hmap⟩ := completes_of_tryProcess accepted
  obtain ⟨t', runs', -, rfl, hmap'⟩ := completes_of_tryProcess accepted'
  have placed := placed_begin p.state.clear p.rootUnit P p.basePath
  have root : t.units[0]? = some ⟨p.rootUnit, P⟩ :=
    (grows_of_runs runs placed).unit (p.rooted_entry P).unit
  have grows := grows_append ends hash runs runs'
  refine ⟨grows.output, fun i hi => ?_⟩
  obtain ⟨piece, k, u, hat, hunit, hoffset⟩ := exists_place runs placed (Nat.zero_le i) hi
  have hat' : Piece.at? t'.pieces i = some (piece, k) := grows.at? hat hi
  have locate : t.sourceMap.locate i = _ := Source.Map.locate_map t.units hat hi
  have locate' : t'.sourceMap.locate i = _ :=
    Source.Map.locate_map t'.units hat' (Piece.lt_size_of_at? hat')
  refine ⟨t.position ⟨piece.unit, piece.offsetAt k⟩, ?_, ?_⟩
  · rw [hmap, Source.Map.position?, locate, State.sourceMap, Source.Map.units_map]
    rfl
  · have inRoot : piece.unit = 0 → piece.offsetAt k ≤ P.utf8ByteSize := fun hzero => by
      rw [hzero, root] at hunit
      obtain rfl := Option.some.inj hunit
      exact hoffset k (Nat.le_of_lt (Piece.mem_of_at? hat).2)
    obtain ⟨v, hv⟩ := exists_unit_withRoot root hunit ⟨p.rootUnit, P ++ Q⟩
    have position := grows.position (o := ⟨piece.unit, piece.offsetAt k⟩) hv
    rw [hmap', Source.Map.position?, locate', State.sourceMap, Source.Map.units_map]
    exact congrArg some (position.trans (position_withRoot root inRoot Q))

/-- A text that is followed by a definition of the name it has. -/
theorem Session.output_prefix_of_append_apply :
    (Session.new.tryProcess "a\n").1 = .ok "a\n" ∧
    (Session.new.tryProcess ("a\n" ++ "#define a b\na")).1 = .ok "a\n\nb" ∧
    (∃ more, "a\n\nb" = "a\n" ++ more) ∧ ∀ i < "a\n".utf8ByteSize, ∃ position,
      (Session.new.tryProcess "a\n").2.2.sourceMap.position? i = some position ∧
      (Session.new.tryProcess ("a\n" ++ "#define a b\na")).2.2.sourceMap.position? i =
        some position :=
  have accepted : (Session.new.tryProcess "a\n").1 = .ok "a\n" := by cbv
  have accepted' : (Session.new.tryProcess ("a\n" ++ "#define a b\na")).1 = .ok "a\n\nb" := by cbv
  have ends : EndsLine "a\n".toList := ⟨⟨['a'], by decide⟩, by decide, by decide⟩
  ⟨accepted, accepted', Session.output_prefix_of_append accepted accepted' ends (by decide)⟩

end Preprocess

end ShaderPass
