import ShaderPass.Proofs.Preprocess.Names

/-!
# Proofs/Preprocess/Once — a text that asks for it is spliced in once

    shader     ●────────●  #include "a"  ●────────●  #include "lib/../a"  ●──▸ ⋯
                ╲      ╱                           passed over, with a notice
             a   ●──●──●   #pragma once

A run **leads through** points, in the order in which they come, those of the texts that are spliced in
among them.  The names that are marked at a point are those of the units in which a `#pragma once` was
obeyed at one of the points before it (`LeadsThrough.mem_marked_iff`).  So a text is not spliced in after
it has obeyed one, whatever asks for it, and it is spliced in whenever the only ones that it has stood
in text that was skipped.
-/

namespace ShaderPass.Preprocess

open Relation (ReflTransGen)
open Directive (parse?)

variable {env : Settings} {f f' : Frame} {s s₁ s' t : State} {x y z root : Point}
  {ys zs : List Point} {i : Inclusion} {ends : List Nat} {line : Directive.Line}
  {after : Lexeme.Cursor} {path resolved : String} {rest : List Char}

/-! ## The order in which a run goes through points -/

/-- The run from a point **goes through** some points, in order, to the end of its unit. -/
inductive RunsThrough (env : Settings) : Point → List Point → State → Prop
  | finish {x : Point} {t : State} (step : x.step env = (.finished, t)) : RunsThrough env x [x] t
  | next {x : Point} {ys : List Point} {f' : Frame} {s' t : State}
      (step : x.step env = (.next f', s')) (rest : RunsThrough env ⟨f', s'⟩ ys t) :
      RunsThrough env x (x :: ys) t
  | splice {x : Point} {ys zs : List Point} {f' : Frame} {s' s'' t : State} {i : Inclusion}
      {ends : List Nat} (step : x.step env = (.splice i ends f', s'))
      (spliced : RunsThrough env (s'.entry i) ys s'')
      (rest : RunsThrough env ⟨f', s''.emitLineEnds x.frame.unit ends⟩ zs t) :
      RunsThrough env x (x :: (ys ++ zs)) t

/-- The run from a point **leads through** some points, in order, to another one. -/
inductive LeadsThrough (env : Settings) : Point → List Point → Point → Prop
  | refl (x : Point) : LeadsThrough env x [] x
  | next {x y : Point} {ys : List Point} {f' : Frame} {s' : State}
      (step : x.step env = (.next f', s')) (rest : LeadsThrough env ⟨f', s'⟩ ys y) :
      LeadsThrough env x (x :: ys) y
  | enter {x y : Point} {ys : List Point} {f' : Frame} {s' : State} {i : Inclusion}
      {ends : List Nat} (step : x.step env = (.splice i ends f', s'))
      (spliced : LeadsThrough env (s'.entry i) ys y) : LeadsThrough env x (x :: ys) y
  | resume {x y : Point} {ys zs : List Point} {f' : Frame} {s' s'' : State} {i : Inclusion}
      {ends : List Nat} (step : x.step env = (.splice i ends f', s'))
      (spliced : RunsThrough env (s'.entry i) ys s'')
      (rest : LeadsThrough env ⟨f', s''.emitLineEnds x.frame.unit ends⟩ zs y) :
      LeadsThrough env x (x :: (ys ++ zs)) y

theorem exists_runsThrough (h : Runs env x t) : ∃ ys, RunsThrough env x ys t := by
  induction h with
  | finish step => exact ⟨_, .finish step⟩
  | next step _ ih =>
    obtain ⟨ys, rest⟩ := ih
    exact ⟨_, .next step rest⟩
  | splice step _ _ ih ih' =>
    obtain ⟨ys, spliced⟩ := ih
    obtain ⟨zs, rest⟩ := ih'
    exact ⟨_, .splice step spliced rest⟩

theorem RunsThrough.runs (h : RunsThrough env x ys t) : Runs env x t := by
  induction h with
  | finish step => exact .finish step
  | next step _ ih => exact .next step ih
  | splice step _ _ ih ih' => exact .splice step ih ih'

theorem LeadsThrough.trans (h : LeadsThrough env x ys y) (h' : LeadsThrough env y zs z) :
    LeadsThrough env x (ys ++ zs) z := by
  induction h with
  | refl => exact h'
  | next step _ ih => exact .next step (ih h')
  | enter step _ ih => exact .enter step (ih h')
  | @resume _ _ us vs _ _ _ _ _ step spliced _ ih =>
    rw [List.cons_append, List.append_assoc]
    exact .resume step spliced (ih h')

/-- Where a run proceeds, it leads there through the point before and what is spliced in at it. -/
theorem exists_leadsThrough_of_proceeds (h : Proceeds env x y) : ∃ ys, LeadsThrough env x ys y := by
  cases h with
  | next step => exact ⟨_, .next step (.refl _)⟩
  | enter step => exact ⟨_, .enter step (.refl _)⟩
  | resume step run =>
    obtain ⟨ys, spliced⟩ := exists_runsThrough (runs_iff.2 run)
    exact ⟨_, .resume step spliced (.refl _)⟩

/-- **The points that are reached are those that the run leads to.** -/
theorem reached_iff_leadsThrough : Reached env root x ↔ ∃ ys, LeadsThrough env root ys x := by
  rw [reached_iff]
  constructor
  · intro h
    induction h with
    | refl => exact ⟨[], .refl root⟩
    | tail _ hxy ih =>
      obtain ⟨ys, leads⟩ := ih
      obtain ⟨zs, leads'⟩ := exists_leadsThrough_of_proceeds hxy
      exact ⟨_, leads.trans leads'⟩
  · rintro ⟨ys, leads⟩
    induction leads with
    | refl => exact .refl
    | next step _ ih => exact .head (.next step) ih
    | enter step _ ih => exact .head (.enter step) ih
    | resume step spliced _ ih => exact .head (.resume step (run_of_runs spliced.runs)) ih

/-! ## What is marked -/

/-- Nothing is marked between a directive that asks for a text and the beginning of the text. -/
theorem mem_marked_of_splice (h : x.step env = (.splice i ends f', s')) (name : String) :
    name ∈ (s'.entry i).state.marked ↔ name ∈ x.state.marked ∨ x.Marks name :=
  mem_marked_of_step h name

theorem exists_marks_append (ys zs : List Point) (name : String) :
    (∃ y ∈ ys ++ zs, y.Marks name) ↔ (∃ y ∈ ys, y.Marks name) ∨ ∃ z ∈ zs, z.Marks name := by
  simp only [List.mem_append, or_and_right, exists_or]

theorem RunsThrough.mem_marked_iff (h : RunsThrough env x ys t) (name : String) :
    name ∈ t.marked ↔ name ∈ x.state.marked ∨ ∃ y ∈ ys, y.Marks name := by
  induction h with
  | finish step =>
    rw [mem_marked_of_step step, List.exists_mem_cons_iff]
    exact or_congr_right (or_iff_left fun ⟨_, hy, _⟩ => List.not_mem_nil hy).symm
  | next step _ ih => rw [ih, mem_marked_of_step step, List.exists_mem_cons_iff, or_assoc]
  | splice step _ _ ih ih' =>
    rw [ih', State.marked_emitLineEnds, ih, mem_marked_of_splice step, List.exists_mem_cons_iff,
      exists_marks_append, or_assoc, or_assoc]

/-- **The names that are marked at a point are those that the points before it mark.** -/
theorem LeadsThrough.mem_marked_iff (h : LeadsThrough env x ys y) (name : String) :
    name ∈ y.state.marked ↔ name ∈ x.state.marked ∨ ∃ z ∈ ys, z.Marks name := by
  induction h with
  | refl => exact (or_iff_left fun ⟨_, hz, _⟩ => List.not_mem_nil hz).symm
  | next step _ ih => rw [ih, mem_marked_of_step step, List.exists_mem_cons_iff, or_assoc]
  | enter step _ ih => rw [ih, mem_marked_of_splice step, List.exists_mem_cons_iff, or_assoc]
  | resume step spliced _ ih =>
    rw [ih, State.marked_emitLineEnds, spliced.mem_marked_iff, mem_marked_of_splice step,
      List.exists_mem_cons_iff, exists_marks_append, or_assoc, or_assoc]

/-! ## What a directive asks for -/

/-- **A step splices in no text that is marked.** -/
theorem unmarked_of_splice (h : x.step env = (.splice i ends f', s')) : i.path ∉ x.state.marked := by
  cases step_cases h with
  | splice reads handle =>
    obtain ⟨path, splices⟩ := spliceIn_of_handle handle
    rw [← marked_flush reads.flush]
    cases splicesIn_of_spliceIn splices with
    | splice _ unmarked => exact unmarked

/-- **A directive that asks for a text that is marked fails or is passed over**: the macros, the units
and the open groups stay what they are, and nothing is put out for it but its line ends. -/
theorem passes_over (reads : AtDirective f s s₁ line after) (active : s.isActive = true)
    (parses : parse? line.text = some (.splice path, rest))
    (resolves : env.library.resolve? f.directory env.basePath path = some resolved)
    (marked : resolved ∈ s.marked) :
    (resolved ∈ s.chain ∧ ∃ e, step env f s = (.failed e, s₁)) ∨
      ∃ s', step env f s = (.next (f.afterLine after), s') ∧ s'.macros = s.macros ∧
        s'.units = s.units ∧ s'.groups = s.groups ∧
        s₁.Adds (line.lineEnds.map (.lineEnd f.unit)) s' := by
  have step := step_of_resolves reads active parses resolves
  by_cases onChain : resolved ∈ s.chain
  · exact .inl ⟨onChain, _, step.trans (if_pos onChain)⟩
  · rw [if_neg onChain, if_pos marked] at step
    refine .inr ⟨_, step, ?_, ?_, ?_, State.adds_emitLineEnds ..⟩
    all_goals
      rw [State.emitLineEnds_eq, flush_eq reads.flush]
      rfl

/-- **A directive that asks for a text that is neither marked nor being read splices it in.** -/
theorem splices_in (reads : AtDirective f s s₁ line after) (active : s.isActive = true)
    (parses : parse? line.text = some (.splice path, rest))
    (resolves : env.library.resolve? f.directory env.basePath path = some resolved)
    (unmarked : resolved ∉ s.marked) (offChain : resolved ∉ s.chain) :
    ∃ text, env.library.text? resolved = some text ∧
      step env f s = (.splice ⟨resolved, text⟩ line.lineEnds (f.afterLine after), s₁) := by
  have step := step_of_resolves reads active parses resolves
  rw [if_neg offChain, if_neg unmarked] at step
  have known : env.library.contains resolved = true := List.find?_some resolves
  obtain ⟨text, htext⟩ := Option.isSome_iff_exists.1 known
  rw [htext] at step
  exact ⟨text, htext, step⟩

/-! ## The run of a source -/

namespace Session

/-- **A text that has obeyed a `#pragma once` is not spliced in again in the same run.**  Whatever a
session was used for before, at the beginning of a source nothing is marked.  Every point of its run is
led to through the points before it, and a text that is spliced in marks its path where it comes to a
`#pragma once` in text that is emitted.  No point splices in a text that one before it marks.  A
directive that asks for such a text, by whatever path in whatever unit, fails where the text is being
read, and is passed over everywhere else: macros, units and open groups stay what they are, and nothing
is put out but its line ends.  If the only `#pragma once` that the text has come to stood in text that
was skipped, it is spliced in again, and read from its beginning. -/
theorem spliced_once (p : Session) (source : String) :
    (p.entry source).state.marked = [] ∧
    (∀ x, Reached p.settings (p.entry source) x ↔
      ∃ ys, LeadsThrough p.settings (p.entry source) ys x) ∧
    (∀ (s : State) (i : Inclusion) y, ReflTransGen (Advances p.settings) (s.entry i) y → y.AtOnce →
      y.state.isActive = true → y.Marks i.path) ∧
    ∀ ys x, LeadsThrough p.settings (p.entry source) ys x →
      (∀ i ends f' s', x.step p.settings = (.splice i ends f', s') → ∀ y ∈ ys, ¬y.Marks i.path) ∧
      ∀ s line after path rest resolved, AtDirective x.frame x.state s line after →
        x.state.isActive = true → parse? line.text = some (.splice path, rest) →
        p.library.resolve? x.frame.directory p.basePath path = some resolved →
        ((∃ y ∈ ys, y.Marks resolved) →
          (resolved ∈ x.state.chain ∧ ∃ e, x.step p.settings = (.failed e, s)) ∨
          ∃ s', x.step p.settings = (.next (x.frame.afterLine after), s') ∧
            s'.macros = x.state.macros ∧ s'.units = x.state.units ∧ s'.groups = x.state.groups ∧
            s.Adds (line.lineEnds.map (.lineEnd x.frame.unit)) s') ∧
        ((∀ y ∈ ys, y.frame.name = resolved → y.AtOnce → y.state.isActive = false) →
          resolved ∉ x.state.chain →
          ∃ text, p.library.text? resolved = some text ∧
            x.step p.settings =
              (.splice ⟨resolved, text⟩ line.lineEnds (x.frame.afterLine after), s) ∧
            (s.entry ⟨resolved, text⟩).Reads ⟨resolved, text⟩ (VirtualPath.parent resolved) ∧
            (s.entry ⟨resolved, text⟩).frame.cursor = .ofString text) := by
  refine ⟨rfl, fun x => reached_iff_leadsThrough, fun s i y reach atOnce active => ?_,
    fun ys x leads => ?_⟩
  · exact ⟨(same_of_reach reach).2.1, active, atOnce⟩
  have marked : ∀ name, name ∈ x.state.marked ↔ ∃ y ∈ ys, y.Marks name := fun name =>
    (leads.mem_marked_iff name).trans (or_iff_right List.not_mem_nil)
  refine ⟨fun i ends f' s' step y hy marks => ?_, ?_⟩
  · exact unmarked_of_splice step ((marked i.path).2 ⟨y, hy, marks⟩)
  · intro s line after path rest resolved reads active parses resolves
    refine ⟨fun marks => ?_, fun skipped offChain => ?_⟩
    · exact passes_over reads active parses resolves ((marked resolved).2 marks)
    · have unmarked : resolved ∉ x.state.marked := by
        rw [marked resolved]
        rintro ⟨y, hy, marks⟩
        exact absurd (skipped y hy marks.name marks.atOnce) (ne_false_of_eq_true marks.active)
      have resolves : p.settings.library.resolve? x.frame.directory p.settings.basePath path =
        some resolved := resolves
      obtain ⟨text, htext, step⟩ := splices_in reads active parses resolves unmarked offChain
      exact ⟨text, htext, step, reads_entry s _, rfl⟩

/-- A text that was spliced in once before, in an earlier source and under another path in this one. -/
theorem spliced_once_apply :
    let before := Session.new.reset [("a", "#pragma once")] ""
    let p := (before.tryProcess "#include \"a\"").2.2
    let root := p.entry "#include \"a\"\n#include \"./a\""
    ∃ x : Point, x.frame.cursor.rest = "#include \"./a\"".toList ∧
      (∃ ys, LeadsThrough p.settings root ys x ∧ ∃ y ∈ ys, y.Marks "a") ∧
      ∃ f' s', x.step p.settings = (.next f', s') ∧ s'.macros = x.state.macros ∧
        s'.units = x.state.units := by
  intro before p root
  let first : Frame := ⟨0, "shader", "", 0, ⟨"#include \"./a\"".toList, ⟨13, 2, 1⟩⟩, [], true⟩
  let spliced : State := ⟨.empty, #[⟨"shader", "#include \"a\"\n#include \"./a\""⟩,
    ⟨"a", "#pragma once"⟩], #[], [], ["shader"], ["a"], #[]⟩
  let x : Point := ⟨first, spliced.emitLineEnds 0 [12]⟩
  have step : root.step p.settings =
      (.splice ⟨"a", "#pragma once"⟩ [12] first, root.state) := by cbv
  have run : (root.state.entry ⟨"a", "#pragma once"⟩).run p.settings = (none, spliced) := by
    cbv
  have unit : root.frame.unit = 0 := by cbv
  have proceeds := Proceeds.resume step run
  rw [unit] at proceeds
  have reached : Reached p.settings root x := reached_iff.2 (.single proceeds)
  have active : x.state.isActive = true := rfl
  have reads : AtDirective x.frame x.state x.state ⟨"#include \"./a\"", []⟩ ⟨[], ⟨27, 2, 15⟩⟩ :=
    ⟨rfl, ⟨⟨.punct, "#"⟩, ⟨"include \"./a\"".toList, ⟨14, 2, 2⟩⟩, by cbv, rfl, by cbv⟩,
      flush_of_waiting_nil rfl⟩
  have parses : parse? "#include \"./a\"" = some (.splice "./a", []) := by cbv
  have resolves : p.library.resolve? x.frame.directory p.basePath "./a" = some "a" := by cbv
  have marked : x.state.marked = ["a"] := rfl
  have chain : x.state.chain = ["shader"] := rfl
  obtain ⟨-, points, -, each⟩ := spliced_once p "#include \"a\"\n#include \"./a\""
  obtain ⟨ys, leads⟩ := (points x).1 reached
  have marks : ∃ y ∈ ys, y.Marks "a" :=
    ((leads.mem_marked_iff "a").1 (marked ▸ List.mem_cons_self)).resolve_left List.not_mem_nil
  obtain ⟨passes, -⟩ := (each ys x leads).2 _ _ _ "./a" [] "a" reads active parses resolves
  rcases passes marks with ⟨onChain, -⟩ | ⟨s', step', macros, units, -⟩
  · exact absurd (chain ▸ onChain) (by decide)
  · exact ⟨x, rfl, ⟨ys, leads, marks⟩, _, s', step', macros, units⟩

end Session

end ShaderPass.Preprocess
