import Mathlib
import ShaderPass.Proofs.Preprocess.Groups

/-!
# Proofs/Preprocess/Balance — a unit ends with the groups it began with

    outer             where the unit begins
    g :: outer        #if      opened by the line at x
    h :: g :: outer   #if
    g :: outer        #endif
    g :: outer        the end: missing #endif, at x

All units of a chain share one stack of open groups, and only its length where a unit begins tells
the groups of that unit from those around it.  In every state that the run of a unit passes, the
groups around it are below those of the unit and of the texts spliced into it
(`outer_suffix_of_passes`).  Where none of its own is open, a line that is about an open group fails
(`step_of_closed`); and while some are, the outermost of them knows the line that opened it
(`outermost_of_opened`), which is what the failure at the end of the unit points to.
-/

namespace ShaderPass.Preprocess

open Lexeme (Cursor)
open Macro (Origin)
open Directive (parse? wordOf innerWords)
open Relation (ReflTransGen)

variable {env : Settings} {f : Frame} {s s₁ t : State} {a x y z : Point} {own own' outer : List Group}
  {g : Group}

/-- The beginning of a unit. -/
def State.activation (s : State) (name text directory : String) : Point :=
  ⟨(begin s name text directory).1, (begin s name text directory).2⟩

theorem Session.entry_eq_activation (p : Session) (source : String) :
    p.entry source = p.state.clear.activation p.rootUnit source p.basePath := rfl

theorem within_activation (s : State) (name text directory : String) :
    (s.activation name text directory).frame.Within s.groups
      (s.activation name text directory).state := ⟨[], rfl, rfl⟩

/-! ## The groups around a unit stay -/

theorem Frame.Within.suffix (h : f.Within outer s) : outer <:+ s.groups := by
  obtain ⟨own, groups, -⟩ := h
  exact ⟨own, groups.symm⟩

theorem within_advances (hx : x.frame.Within outer x.state) (h : Advances env x y) :
    y.frame.Within outer y.state := by
  cases h with
  | next step => exact within_next hx step
  | splice step run =>
    obtain ⟨own, groups, depth⟩ := hx
    exact ⟨own, (groups_of_resume step run).trans groups,
      depth.trans (step_splice step).1.depth.symm⟩

theorem within_reach (hx : x.frame.Within outer x.state) (h : ReflTransGen (Advances env) x y) :
    y.frame.Within outer y.state := by
  induction h with
  | refl => exact hx
  | tail _ hyz ih => exact within_advances ih hyz

/-- Where the groups of a unit are closed, those around it are left. -/
theorem groups_closeAbove (h : s.groups = own ++ outer) :
    (s.closeAbove outer.length).groups = outer := by
  rw [State.closeAbove, h, List.length_append, Nat.add_sub_cancel, List.drop_left]

/-- A step that fails leaves the groups around its unit. -/
theorem outer_suffix_of_failed {e : Error} (hf : f.Within outer s)
    (h : step env f s = (.failed e, t)) : outer <:+ t.groups := by
  cases step_cases h with
  | failed => exact hf.suffix
  | failedAfter flush => exact groups_flush flush ▸ hf.suffix
  | @unterminated s₁ _ flush =>
    obtain ⟨own, groups, depth⟩ := hf
    have left : (s₁.closeAbove f.depth).groups = outer :=
      depth ▸ groups_closeAbove ((groups_flush flush).trans groups)
    exact left.symm ▸ List.suffix_refl outer

/-- At every point that is reached, the groups of its unit are inside those around the root. -/
theorem exists_within_of_reached (ha : a.frame.Within outer a.state) (h : Reached env a x) :
    ∃ around, outer <:+ around ∧ x.frame.Within around x.state := by
  refine h.induct (P := fun x => ∃ around, outer <:+ around ∧ x.frame.Within around x.state)
    ⟨outer, List.suffix_refl _, ha⟩ ?_
  rintro x y ⟨around, suffix, within⟩ hxy
  cases hxy with
  | next step => exact ⟨around, suffix, within_next within step⟩
  | @enter f' s' i ends step =>
    refine ⟨s'.groups, suffix.trans ?_, within_entry s' i⟩
    exact groups_of_splice step ▸ within.suffix
  | resume step run => exact ⟨around, suffix, within_advances within (.splice step run)⟩

/-- **No step in the course of an activation touches a group that was open where it began.** -/
theorem outer_suffix_of_passes (ha : a.frame.Within outer a.state) (h : Passes env a t) :
    outer <:+ t.groups := by
  cases h with
  | before hx =>
    obtain ⟨around, suffix, within⟩ := exists_within_of_reached ha hx
    exact suffix.trans within.suffix
  | @after x o t hx step =>
    obtain ⟨around, suffix, within⟩ := exists_within_of_reached ha hx
    refine suffix.trans ?_
    cases o with
    | next f' => exact (within_next within step).suffix
    | splice => exact groups_of_splice step ▸ within.suffix
    | finished => exact (groups_of_finished step).1 ▸ within.suffix
    | failed e => exact outer_suffix_of_failed within step

/-! ## Lines about a group that is not open -/

/-- A directive about an open group is out of place where the unit has none. -/
theorem obey_of_closed (env : Settings) (origin : Origin) {line : String} {d : Directive} {rest : List Char}
    (parses : parse? line = some (d, rest)) (inner : wordOf line ∈ innerWords)
    (closed : s.groupAbove? f.depth = none) :
    ∃ word : GroupWord, word.spelling = "#" ++ wordOf line ∧
      obey env f origin s d = .error (.withoutGroup word) := by
  rcases Directive.inner_of_mem_spellings (Directive.wordOf_mem_spellings parses) inner with
    ⟨text, rfl, hword⟩ | ⟨rfl, hword⟩ | ⟨rfl, hword⟩
  · exact ⟨.elseIf, by rw [hword]; rfl, by simp only [obey, closed]⟩
  · exact ⟨.otherwise, by rw [hword]; rfl, by simp only [obey, closed]⟩
  · exact ⟨.endGroup, by rw [hword]; rfl, by simp only [obey, closed]⟩

/-- **A line about an open group fails where its unit has none**, and points to itself. -/
theorem step_of_closed (env : Settings) {line : Directive.Line} {after : Cursor}
    (reads : AtDirective f s s₁ line after) (inner : wordOf line.text ∈ innerWords)
    (hf : f.Within s.groups s) :
    ∃ cause, step env f s = (.failed ⟨cause, s.position f.origin⟩, s₁) ∧
      ((∃ word : GroupWord, word.spelling = "#" ++ wordOf line.text ∧ cause = .withoutGroup word) ∨
        parse? line.text = none ∧ cause = .malformedDirective (wordOf line.text) line.text) := by
  obtain ⟨own, -, depth⟩ := hf
  have closed : s₁.groupAbove? f.depth = none := by
    rw [State.groupAbove?, groups_flush reads.flush, depth, if_neg (Nat.lt_irrefl _)]
  have position : s₁.position f.origin = s.position f.origin := by rw [flush_eq reads.flush]; rfl
  rw [step_of_atDirective reads, handle_of_innerWord inner, position]
  cases parses : parse? line.text with
  | none =>
    have known : wordOf line.text ∈ Directive.words :=
      List.mem_append_right _ (Directive.mem_innerWords.1 inner).1
    exact ⟨_, rfl, .inr ⟨rfl, if_pos known⟩⟩
  | some r =>
    obtain ⟨d, rest⟩ := r
    obtain ⟨word, spelling, fails⟩ := obey_of_closed env f.origin parses inner closed
    exact ⟨_, by simp only [fails], .inl ⟨word, spelling, rfl⟩⟩

/-! ## The outermost open group of a unit -/

/-- The points of an activation where groups of its unit are open, each with the point whose line
has opened the outermost of them. -/
inductive Opened (env : Settings) (a : Point) : Point → Point → Prop
  | opens {x y : Point} (reach : ReflTransGen (Advances env) a x)
      (closed : x.state.groups = a.state.groups) (advances : Advances env x y)
      (isOpen : y.state.groups ≠ a.state.groups) : Opened env a x y
  | stays {x y z : Point} (before : Opened env a x y) (advances : Advances env y z)
      (isOpen : z.state.groups ≠ a.state.groups) : Opened env a x z

theorem exists_opened (h : ReflTransGen (Advances env) a y) (isOpen : y.state.groups ≠ a.state.groups) :
    ∃ x, Opened env a x y := by
  induction h with
  | refl => exact absurd rfl isOpen
  | @tail b c reach advances ih =>
    by_cases closed : b.state.groups = a.state.groups
    · exact ⟨b, .opens reach closed advances isOpen⟩
    · obtain ⟨x, before⟩ := ih closed
      exact ⟨x, .stays before advances isOpen⟩

theorem Opened.reach (h : Opened env a x y) : ReflTransGen (Advances env) a y := by
  induction h with
  | opens reach _ advances _ => exact reach.tail advances
  | stays _ advances _ ih => exact ih.tail advances

theorem Opened.opening_reach (h : Opened env a x y) : ReflTransGen (Advances env) a x := by
  induction h with
  | opens reach _ _ _ => exact reach
  | stays _ _ _ ih => exact ih

theorem Group.openedAt_further (g : Group) (b : Branch) : (g.further b).openedAt = g.openedAt := by
  cases b <;> rfl

/-- The outermost group of a unit is the last of those that it has on top of the ones around it. -/
theorem outermostAbove?_of_append (groups : s.groups = own ++ outer) :
    s.outermostAbove? outer.length = own.getLast? := by
  rw [State.outermostAbove?, groups, List.reverse_append,
    List.getElem?_append_right (Nat.le_of_eq (List.length_reverse)), List.length_reverse,
    Nat.sub_self, ← List.head?_eq_getElem?, List.head?_reverse]

/-- A move leaves the outermost group of a unit open where it was opened, or closes it. -/
theorem Move.getLast?_regroup {m : Move} {position : Source.Position}
    (h : m.regroup position (own ++ outer) = own' ++ outer) (hg : own.getLast? = some g)
    (hne : own' ≠ []) : ∃ g', own'.getLast? = some g' ∧ g'.openedAt = g.openedAt := by
  obtain ⟨g₀, gs, rfl⟩ := List.exists_cons_of_ne_nil fun h : own = [] => by simp [h] at hg
  cases m with
  | none =>
    obtain rfl := List.append_cancel_right h
    exact ⟨g, hg, rfl⟩
  | opening b =>
    obtain rfl : _ :: g₀ :: gs = own' := List.append_cancel_right h
    exact ⟨g, by rw [List.getLast?_cons_cons, hg], rfl⟩
  | branch b =>
    obtain rfl : g₀.further b :: gs = own' := List.append_cancel_right h
    rw [List.getLast?_cons] at hg ⊢
    refine ⟨_, rfl, ?_⟩
    rw [← Option.some.inj hg]
    cases gs.getLast? with
    | none => exact Group.openedAt_further g₀ b
    | some g' => rfl
  | ending =>
    obtain rfl : gs = own' := List.append_cancel_right h
    obtain ⟨g₁, gs, rfl⟩ := List.exists_cons_of_ne_nil hne
    exact ⟨g, by rw [← hg, List.getLast?_cons_cons], rfl⟩

/-- Where groups of a unit are open and stay so, the outermost of them was opened where it was. -/
theorem outermost_of_advances (hx : x.frame.Within outer x.state) (h : Advances env x y)
    (hg : x.state.outermostAbove? outer.length = some g) (isOpen : y.state.groups ≠ outer) :
    ∃ g', y.state.outermostAbove? outer.length = some g' ∧ g'.openedAt = g.openedAt := by
  have hy := within_advances hx h
  have same : ∀ {s : State}, s.groups = x.state.groups →
      s.outermostAbove? outer.length = some g := fun hs => by
    rw [State.outermostAbove?, hs]
    exact hg
  cases h with
  | splice step run => exact ⟨g, same (groups_of_resume step run), rfl⟩
  | next step =>
    rcases groups_of_next step with ⟨-, -, -, lexeme⟩ | ⟨s₁, line, after, -, moves, -⟩
    · exact ⟨g, same lexeme, rfl⟩
    · obtain ⟨own, groups, -⟩ := hx
      obtain ⟨own', groups', -⟩ := hy
      rw [outermostAbove?_of_append groups] at hg
      rw [outermostAbove?_of_append groups']
      have regroups := moves.symm.trans groups'
      rw [groups] at regroups
      refine Move.getLast?_regroup regroups hg ?_
      rintro rfl
      exact isOpen groups'

/-- The step that opens the outermost group of a unit is over a line that opens a group, and the
group knows the position of that line. -/
theorem outermost_of_opening (hx : x.frame.Within outer x.state) (closed : x.state.groups = outer)
    (h : Advances env x y) (isOpen : y.state.groups ≠ outer) :
    (∃ s₁ line after b, AtDirective x.frame x.state s₁ line after ∧
      s₁.move x.frame.origin line.text = .opening b) ∧
    ∃ g, y.state.outermostAbove? outer.length = some g ∧
      g.openedAt = x.state.position x.frame.origin := by
  cases h with
  | splice step run => exact absurd ((groups_of_resume step run).trans closed) isOpen
  | next step =>
    rcases groups_of_next step with ⟨-, -, -, lexeme⟩ | ⟨s₁, line, after, reads, moves, inner⟩
    · exact absurd (lexeme.trans closed) isOpen
    · obtain ⟨own, -, depth⟩ := hx
      rw [closed, depth] at inner
      cases move : s₁.move x.frame.origin line.text with
      | none => exact absurd ((moves.trans (by rw [move]; rfl)).trans closed) isOpen
      | branch | ending =>
        rw [move] at inner
        exact absurd (inner trivial) (Nat.lt_irrefl _)
      | opening b =>
        rw [move, closed] at moves
        have opened : (Group.opened (Group.active outer) b.holds (s₁.position x.frame.origin)).openedAt =
            x.state.position x.frame.origin := by
          rw [flush_eq reads.flush]
          rfl
        exact ⟨⟨s₁, line, after, b, reads, move⟩, _, @outermostAbove?_of_append _ [_] outer moves,
          opened⟩

/-- **While groups of a unit are open, the outermost of them knows the position of the line that
opened it.** -/
theorem outermost_of_opened (ha : a.frame.Within a.state.groups a.state) (h : Opened env a x y) :
    (∃ s₁ line after b, AtDirective x.frame x.state s₁ line after ∧
      s₁.move x.frame.origin line.text = .opening b) ∧
    ∃ g, y.state.outermostAbove? a.state.groups.length = some g ∧
      g.openedAt = x.state.position x.frame.origin := by
  induction h with
  | opens reach closed advances isOpen =>
    exact outermost_of_opening (within_reach ha reach) closed advances isOpen
  | stays before advances isOpen ih =>
    obtain ⟨opening, g, outermost, openedAt⟩ := ih
    obtain ⟨g', outermost', openedAt'⟩ :=
      outermost_of_advances (within_reach ha before.reach) advances outermost isOpen
    exact ⟨opening, g', outermost', openedAt'.trans openedAt⟩

theorem next_of_rest_nil {c : Cursor} {mode : Lexeme.Mode} (h : c.rest = []) :
    c.next mode = .ok none := by
  rw [Cursor.next, h]
  rfl

theorem step_of_flush_error {e : Error} (atEnd : x.frame.cursor.rest = [])
    (flush : flush x.frame x.state = .error e) : x.step env = (.failed e, x.state) := by
  simp only [Point.step, step, next_of_rest_nil atEnd, stepEnd, flush]

/-- **A unit that ends inside groups of its own fails**, closes them, and points to the line that
opened the outermost, if what waits to be expanded can be. -/
theorem step_of_opened (ha : a.frame.Within a.state.groups a.state) (h : Opened env a x y)
    (atEnd : y.frame.cursor.rest = []) (flush : flush y.frame y.state = .ok s₁) :
    y.step env = (.failed ⟨.unterminatedGroup, x.state.position x.frame.origin⟩,
      s₁.closeAbove y.frame.depth) ∧ (s₁.closeAbove y.frame.depth).groups = a.state.groups := by
  obtain ⟨-, g, outermost, openedAt⟩ := outermost_of_opened ha h
  obtain ⟨own, groups, depth⟩ := within_reach ha h.reach
  have groups₁ := groups_flush flush
  constructor
  · rw [← openedAt]
    rw [State.outermostAbove?, ← groups₁, depth] at outermost
    simp only [Point.step, step, next_of_rest_nil atEnd, stepEnd, flush, State.outermostAbove?,
      outermost]
  · rw [← depth, groups_closeAbove (groups₁.trans groups)]

/-! ## The run of a unit -/

/-- **A unit ends with the groups and on the chain that it began with**, or it fails.  Every state
that its run passes, with all that is spliced in, has the groups around the unit below all others.
A line of the unit that is about an open group fails where the unit has opened none that is still
open.  At the end of its text with groups of its own open, the unit fails: at the line that opened
the outermost of them, unless it does before, as the tokens that wait cannot be expanded. -/
theorem groups_balanced (env : Settings) (s : State) (name text directory : String) (a : Point)
    (begins : a = s.activation name text directory) :
    (∀ t, a.run env = (none, t) → t.groups = s.groups ∧ t.chain = s.chain) ∧
    (∀ t, Passes env a t → s.groups <:+ t.groups) ∧
    ∀ x, ReflTransGen (Advances env) a x →
      (∀ s₁ line after, AtDirective x.frame x.state s₁ line after →
        wordOf line.text ∈ innerWords → x.state.groups = s.groups →
        ∃ cause, a.run env = (some ⟨cause, (Source.Unit.mk name text).position
            x.frame.cursor.location.offset⟩, s₁) ∧
          ((∃ word : GroupWord, word.spelling = "#" ++ wordOf line.text ∧
              cause = .withoutGroup word) ∨
            parse? line.text = none ∧
              cause = .malformedDirective (wordOf line.text) line.text)) ∧
      (x.frame.cursor.rest = [] → x.state.groups ≠ s.groups →
        ∃ e t, a.run env = (some e, t) ∧
          (flush x.frame x.state = .error e ∨
            ∃ y, Opened env a y x ∧
              (∃ s₁ line after b, AtDirective y.frame y.state s₁ line after ∧
                s₁.move y.frame.origin line.text = .opening b) ∧
              e = ⟨.unterminatedGroup,
                (Source.Unit.mk name text).position y.frame.cursor.location.offset⟩ ∧
              t.groups = s.groups)) := by
  have root : a.state.groups = s.groups := by rw [begins]; rfl
  have within : a.frame.Within a.state.groups a.state :=
    root ▸ begins ▸ within_activation s name text directory
  have position : ∀ {x}, ReflTransGen (Advances env) a x → x.state.position x.frame.origin =
      (Source.Unit.mk name text).position x.frame.cursor.location.offset := fun {x} reach => by
    have placed : a.frame.Placed a.state text := begins ▸ placed_begin s name text directory
    have unit := (placed_reach reach placed).1.unit
    have sameName : x.frame.name = name := (same_of_reach reach).2.1.trans (by rw [begins]; rfl)
    rw [sameName] at unit
    simp only [State.position, Source.positionIn, Frame.origin, unit]
  have fails : ∀ {x e t}, ReflTransGen (Advances env) a x → x.step env = (.failed e, t) →
      a.run env = (some e, t) := fun reach step =>
    run_of_reached ⟨a, .refl, reach⟩ (run_of_failed step)
  refine ⟨fun t run => ⟨?_, ?_⟩, fun t passes => root ▸ outer_suffix_of_passes within passes,
    fun x reach => ⟨fun s₁ line after reads inner closed => ?_, fun atEnd isOpen => ?_⟩⟩
  · exact (groups_of_runs (runs_iff.2 run) within).trans root
  · exact (chain_run run).trans (by rw [begins]; rfl)
  · rw [← root] at closed
    obtain ⟨cause, step, causes⟩ := step_of_closed env reads inner
      (closed ▸ within_reach within reach)
    exact ⟨cause, position reach ▸ fails reach step, causes⟩
  · cases flush : flush x.frame x.state with
    | error e => exact ⟨e, _, fails reach (step_of_flush_error atEnd flush), .inl rfl⟩
    | ok s₁ =>
      rw [← root] at isOpen ⊢
      obtain ⟨y, opened⟩ := exists_opened reach isOpen
      obtain ⟨step, groups⟩ := step_of_opened within opened atEnd flush
      exact ⟨_, _, fails reach step, .inr ⟨y, opened, (outermost_of_opened within opened).1,
        position opened.opening_reach ▸ rfl, groups⟩⟩

/-- A text that is spliced into an open group and ends it. -/
theorem groups_balanced_apply :
    ∃ t, (State.activation ⟨.empty, #[], #[], [.opened true true ⟨"shader", 1, 1⟩], ["shader"], [], #[]⟩
        "a" "#endif" "").run ⟨.empty, "", []⟩ =
      (some ⟨.withoutGroup .endGroup, ⟨"a", 1, 1⟩⟩, t) := by
  let env : Settings := ⟨.empty, "", []⟩
  let s : State := ⟨.empty, #[], #[], [.opened true true ⟨"shader", 1, 1⟩], ["shader"], [], #[]⟩
  let a := s.activation "a" "#endif" ""
  have reads : AtDirective a.frame a.state a.state ⟨"#endif", []⟩ ⟨[], ⟨6, 1, 7⟩⟩ :=
    ⟨rfl, ⟨⟨.punct, "#"⟩, ⟨"endif".toList, ⟨1, 1, 2⟩⟩, by cbv, by cbv, by cbv⟩, by cbv⟩
  have word : wordOf "#endif" = "endif" := by cbv
  have parses : parse? "#endif" ≠ none := by cbv; exact Option.some_ne_none _
  have position : (Source.Unit.mk "a" "#endif").position 0 = ⟨"a", 1, 1⟩ := by cbv
  obtain ⟨cause, run, ⟨word', spelling, rfl⟩ | ⟨none, -⟩⟩ :=
    ((groups_balanced env s "a" "#endif" "" a rfl).2.2 a .refl).1 a.state _ _ reads
      (by rw [word]; decide) rfl
  · rw [word] at spelling
    cases word' with
    | elseIf | otherwise => exact absurd spelling (by decide)
    | endGroup => exact ⟨_, run.trans (by rw [← position]; rfl)⟩
  · exact absurd none parses

end ShaderPass.Preprocess
