import Mathlib
import ShaderPass.Proofs.Preprocess.Groups

/-!
# Proofs/Preprocess/Branches — of each group the first branch that holds is emitted

    groups      g₀ :: g₁ :: ⋯               innermost first
    histories   h₀ :: h₁ :: ⋯               the branches of each so far, latest first
                │
                └─ guarded c₃ :: guarded c₂ :: guarded c₁

A **history** of the open groups is what a run has read of them: the branches that have begun, each
with what its condition comes to where it stands, whether anyone asks for that or not (`Traced`).  A
group shows its branches (`Group.Shows`): it emits if and only if the text around it is emitted and
its latest branch is the first that holds.  That is kept by every move of a line
(`shown_regroup`), and a text that is spliced in leaves the groups as they are.
-/

namespace ShaderPass

/-! ## Groups and their branches -/

/-- Whether the latest of some branches is the first that holds. -/
def Branch.chosen : List Branch → Bool
  | [] => false
  | b :: earlier => b.holds && !earlier.any holds

namespace Group

variable {g : Group} {gs : List Group} {b : Branch} {h : List Branch} {around : Bool}

/-- A group shows its branches, latest first, in text that is emitted or not. -/
structure Shows (g : Group) (around : Bool) (h : List Branch) : Prop where
  parentActive : g.parentActive = around
  taken : g.taken = (around && Branch.chosen h)
  anyTaken : g.anyTaken = (around && h.any Branch.holds)
  unread : Branch.unread ∈ h ↔ around = false

theorem shows_opened (hb : b = .unread ↔ around = false) (position : Source.Position) :
    (Group.opened around b.holds position).Shows around [b] := by
  refine ⟨rfl, ?_, ?_, ?_⟩
  · simp [Group.opened, Branch.chosen]
  · simp [Group.opened]
  · rw [List.mem_singleton, eq_comm, hb]

/-- A group is undecided if and only if the text around it is emitted and none of its branches
holds. -/
theorem Shows.isUndecided (hg : g.Shows around h) :
    g.isUndecided = (around && !h.any Branch.holds) := by
  rw [Group.isUndecided, hg.parentActive, hg.anyTaken]
  cases around <;> rfl

/-- **A group that goes on with a branch shows it.** -/
theorem Shows.further (hg : g.Shows around h) (hb : b ≠ .unread) :
    (g.further b).Shows around (b :: h) := by
  have taken : (g.further b).taken = (g.isUndecided && b.holds) := by
    cases b with
    | unread => exact absurd rfl hb
    | guarded value => rfl
    | otherwise => exact (Bool.and_true _).symm
  have anyTaken : (g.further b).anyTaken = (g.anyTaken || (g.further b).taken) := by
    cases b <;> rfl
  have parentActive : (g.further b).parentActive = g.parentActive := by cases b <;> rfl
  refine ⟨parentActive.trans hg.parentActive, ?_, ?_, ?_⟩
  · rw [taken, hg.isUndecided, Branch.chosen, Bool.and_assoc, Bool.and_comm (!_)]
  · rw [anyTaken, taken, hg.isUndecided, hg.anyTaken, List.any_cons]
    cases around <;> cases h.any Branch.holds <;> cases b.holds <;> rfl
  · rw [List.mem_cons, hg.unread, or_iff_right (Ne.symm hb)]

/-- **A group emits if and only if the text around it does and its latest branch is chosen.** -/
theorem Shows.isEmitting (hg : g.Shows around h) :
    g.isEmitting = (around && Branch.chosen h) := by
  rw [Group.isEmitting, hg.parentActive, hg.taken, ← Bool.and_assoc, Bool.and_self]

/-! ## Groups inside each other -/

/-- Each of some open groups knows whether the text around it is emitted: the outermost stands in
text that is, and each other one in the current branch of the next. -/
def Linked : List Group → Prop
  | [] => True
  | g :: gs => g.parentActive = active gs ∧ Linked gs

/-- **Text inside linked groups is emitted if and only if all of them are emitting.** -/
theorem Linked.active_iff (h : Linked gs) : active gs = true ↔ ∀ g ∈ gs, g.isEmitting = true := by
  induction gs with
  | nil => exact ⟨fun _ _ hg => absurd hg List.not_mem_nil, fun _ => rfl⟩
  | cons g gs ih =>
    obtain ⟨parentActive, rest⟩ := h
    rw [active, List.forall_mem_cons, ← ih rest, ← parentActive, Group.isEmitting,
      Bool.and_eq_true]
    exact ⟨fun hg => ⟨hg, hg.1⟩, fun hg => hg.1⟩

theorem Linked.suffix {gs' : List Group} (h : Linked gs) (hs : gs' <:+ gs) : Linked gs' := by
  induction gs with
  | nil => exact List.suffix_nil.1 hs ▸ h
  | cons g gs ih =>
    rcases List.suffix_cons_iff.1 hs with rfl | hs
    · exact h
    · exact ih h.2 hs

/-- Each of some open groups shows its branches. -/
inductive Shown : List Group → List (List Branch) → Prop
  | nil : Shown [] []
  | cons {g : Group} {gs : List Group} {h : List Branch} {hs : List (List Branch)}
      (rest : Shown gs hs) (shows : g.Shows (active gs) h) : Shown (g :: gs) (h :: hs)

variable {hs : List (List Branch)}

theorem Shown.linked (h : Shown gs hs) : Linked gs := by
  induction h with
  | nil => trivial
  | cons _ shows ih => exact ⟨shows.parentActive, ih⟩

theorem Shown.length_eq (h : Shown gs hs) : hs.length = gs.length := by
  induction h with
  | nil => rfl
  | cons _ _ ih => exact congrArg (· + 1) ih

theorem Shown.shows (hshown : Shown gs hs) {k : Nat} (hg : gs[k]? = some g)
    (hh : hs[k]? = some h) : g.Shows (active (gs.drop (k + 1))) h := by
  induction hshown generalizing k with
  | nil => cases hg
  | cons rest shows ih =>
    cases k with
    | zero =>
      cases hg
      cases hh
      exact shows
    | succ k => exact ih hg hh

end Group

namespace Preprocess

open Macro (Origin)
open Directive (parse? wordOf openingWords groupWords)
open ShaderPass.Group (Shown Linked)

variable {env : Settings} {f : Frame} {s s' : State} {x y root : Point} {gs : List Group}
  {hs : List (List Branch)} {origin : Origin} {line : String}

/-! ## What is read of the groups -/

/-- What has been read of the open groups after a move. -/
def Move.record : Move → List (List Branch) → List (List Branch)
  | .opening b, hs => [b] :: hs
  | .branch b, h :: hs => (b :: h) :: hs
  | .ending, _ :: hs => hs
  | _, hs => hs

/-- What the run from `root` has read of the groups that are open at a point that it reaches. -/
inductive Traced (env : Settings) (root : Point) : Point → List (List Branch) → Prop
  | root : Traced env root root []
  | line {x : Point} {hs : List (List Branch)} {f' : Frame} {s₁ s' : State} {line : Directive.Line}
      {after : Lexeme.Cursor} (before : Traced env root x hs)
      (reads : AtDirective x.frame x.state s₁ line after) (step : x.step env = (.next f', s')) :
      Traced env root ⟨f', s'⟩ ((s₁.move x.frame.origin line.text).record hs)
  | lexeme {x : Point} {hs : List (List Branch)} {f' : Frame} {s' : State} {l : Lexeme}
      {c : Lexeme.Cursor} (before : Traced env root x hs) (reads : AtLexeme x.frame x.state l c)
      (step : x.step env = (.next f', s')) : Traced env root ⟨f', s'⟩ hs
  | enter {x : Point} {hs : List (List Branch)} {f' : Frame} {s' : State} {i : Inclusion}
      {ends : List Nat} (before : Traced env root x hs)
      (step : x.step env = (.splice i ends f', s')) : Traced env root (s'.entry i) hs
  | resume {x : Point} {hs : List (List Branch)} {f' : Frame} {s' s'' : State} {i : Inclusion}
      {ends : List Nat} (before : Traced env root x hs)
      (step : x.step env = (.splice i ends f', s')) (run : (s'.entry i).run env = (none, s'')) :
      Traced env root ⟨f', s''.emitLineEnds x.frame.unit ends⟩ hs

theorem exists_traced (h : Reached env root x) : ∃ hs, Traced env root x hs := by
  refine h.induct (P := fun x => ∃ hs, Traced env root x hs) ⟨[], .root⟩ ?_
  rintro x y ⟨hs, before⟩ hxy
  cases hxy with
  | enter step => exact ⟨hs, .enter before step⟩
  | resume step run => exact ⟨hs, .resume before step run⟩
  | next step =>
    rcases groups_of_next step with ⟨l, c, reads, -⟩ | ⟨s₁, line, after, reads, -⟩
    · exact ⟨hs, .lexeme before reads step⟩
    · exact ⟨_, .line before reads step⟩

/-! ## Groups show what is read of them -/

/-- What is known of a move in text that is emitted or not: the groups that are not read are those
that it opens in text that is not. -/
def Move.Fits (around : Bool) : Move → Prop
  | .opening b => b = .unread ↔ around = false
  | .branch b => b ≠ .unread
  | _ => True

theorem fits_move (s : State) (origin : Origin) (line : String) :
    (s.move origin line).Fits (Group.active s.groups) := by
  rw [State.move, ← s.isActive_eq]
  split
  next hopening => exact ⟨fun _ => hopening.1, fun _ => rfl⟩
  next hread =>
    split
    next d rest hparse =>
      cases d with
      | openGroup guard =>
        refine ⟨fun h => Branch.noConfusion h, fun inactive => ?_⟩
        exact absurd ⟨inactive, wordOf_mem_openingWords hparse⟩ hread
      | elseIf | otherwise => exact fun h => Branch.noConfusion h
      | define | undefine | endGroup | splice | stop | once | passThrough | nothing => trivial
    next => trivial

/-- **Groups that show what has been read of them show what is read of them in a move.** -/
theorem shown_regroup {m : Move} (h : Shown gs hs) (hm : m.Fits (Group.active gs))
    (position : Source.Position) : Shown (m.regroup position gs) (m.record hs) := by
  cases m with
  | none => exact h
  | opening b => exact .cons h (Group.shows_opened hm position)
  | branch b =>
    cases h with
    | nil => exact .nil
    | cons rest shows => exact .cons rest (shows.further hm)
  | ending =>
    cases h with
    | nil => exact .nil
    | cons rest _ => exact rest

/-- **At every point that a run reaches, the open groups show what has been read of them.** -/
theorem shown_of_traced (h : Traced env root x hs) (hroot : root.state.groups = []) :
    Shown x.state.groups hs := by
  induction h with
  | root => exact hroot ▸ .nil
  | @line x hs f' s₁ s' line after _ reads step ih =>
    rcases groups_of_next step with ⟨l, c, lexeme, -⟩ | ⟨s₂, line', after', reads', moves, -⟩
    · exact absurd lexeme reads.not_atLexeme
    · obtain ⟨rfl, rfl, -⟩ := reads'.unique reads
      have fits := fits_move s₂ x.frame.origin line'.text
      rw [groups_flush reads.flush] at fits
      exact moves ▸ shown_regroup ih fits _
  | lexeme _ reads step ih =>
    rcases groups_of_next step with ⟨l, c, -, same⟩ | ⟨s₂, line', after', reads', -⟩
    · exact same ▸ ih
    · exact absurd reads reads'.not_atLexeme
  | enter _ step ih => exact groups_of_splice step ▸ ih
  | resume _ step run ih => exact groups_of_resume step run ▸ ih

/-- In every state that a run passes, the open groups are linked. -/
theorem linked_passes (hroot : root.state.groups = []) (h : Passes env root s) : Linked s.groups := by
  have reached : ∀ {x}, Reached env root x → Linked x.state.groups := fun hx =>
    have ⟨_, traced⟩ := exists_traced hx
    (shown_of_traced traced hroot).linked
  cases h with
  | before hx => exact reached hx
  | @after x o s' hx step =>
    cases o with
    | next f' => exact reached (hx.proceeds (.next step))
    | splice => exact groups_of_splice step ▸ reached hx
    | finished => exact (groups_of_finished step).1 ▸ reached hx
    | failed => exact (reached hx).suffix (groups_of_failed step)

/-! ## Conditions that nobody asks for -/

/-- **A condition that cannot choose its branch counts for nothing**: what comes of its line comes of
the line with any other condition. -/
theorem handle_elseIf_of_decided {line' text text' : String} {rest rest' : List Char}
    (hshown : Shown s.groups hs)
    (decided : ¬((∀ g ∈ s.groups.tail, g.isEmitting = true) ∧
      ∃ h ∈ hs.head?, ∀ b ∈ h, b.holds = false))
    (parses : parse? line = some (.elseIf text, rest))
    (parses' : parse? line' = some (.elseIf text', rest')) :
    handle env f origin line' s = handle env f origin line s := by
  rw [handle_of_elseIf parses, handle_of_elseIf parses']
  simp only [obey]
  split
  next => rfl
  next g hg =>
    obtain ⟨-, gs, hgs⟩ := State.groupAbove?_eq_some hg
    rw [hgs] at hshown decided
    cases hshown with
    | @cons g gs h hs rest shows =>
      have hdecided : g.isUndecided = false := by
        refine Bool.eq_false_iff.2 fun hundecided => decided ?_
        rw [shows.isUndecided, Bool.and_eq_true, Bool.not_eq_true', List.any_eq_false] at hundecided
        obtain ⟨around, hany⟩ := hundecided
        exact ⟨rest.linked.active_iff.1 around, h, rfl, fun b hb => Bool.eq_false_iff.2 (hany b hb)⟩
      simp only [hdecided, Bool.false_eq_true, if_false]

/-! ## The run of a source -/

/-- **Of each group the first branch that holds is emitted, inside text that is.**  In every state of
the run of a source the outermost open group stands in emitted text, each other one in text that is
emitted if and only if the next one emits, and text is emitted if and only if all open groups emit.
Wherever a run is, there is a history of the open groups, and each group emits if and only if those
around it do and its latest branch is the first that holds; a group that was opened in skipped text
never does.  The condition of a further branch counts for nothing, unless the groups around it emit
and no branch of its own group before it holds. -/
theorem Session.first_branch_emitted (p : Session) (source : String) :
    (∀ s, Passes p.settings (p.entry source) s → Linked s.groups ∧
      (s.isActive = true ↔ ∀ g ∈ s.groups, g.isEmitting = true)) ∧
    ∀ x, Reached p.settings (p.entry source) x →
      (∃ hs, Traced p.settings (p.entry source) x hs) ∧
      ∀ hs, Traced p.settings (p.entry source) x hs →
        hs.length = x.state.groups.length ∧
        (∀ k g h, x.state.groups[k]? = some g → hs[k]? = some h →
          (g.isEmitting = true ↔ (∀ g' ∈ x.state.groups.drop (k + 1), g'.isEmitting = true) ∧
            Branch.chosen h = true) ∧
          (.unread ∈ h ↔ ∃ g' ∈ x.state.groups.drop (k + 1), g'.isEmitting = false) ∧
          (.unread ∈ h → g.isEmitting = false)) ∧
        ∀ s line after text rest, AtDirective x.frame x.state s line after →
          parse? line.text = some (.elseIf text, rest) →
          ¬((∀ g ∈ x.state.groups.tail, g.isEmitting = true) ∧
            ∃ h ∈ hs.head?, ∀ b ∈ h, b.holds = false) →
          ∀ line' text' rest', parse? line' = some (.elseIf text', rest') →
            handle p.settings x.frame x.frame.origin line' s =
              handle p.settings x.frame x.frame.origin line.text s := by
  have root : (p.entry source).state.groups = [] := rfl
  refine ⟨fun s hs => ?_, fun x reached => ⟨exists_traced reached, fun hs traced => ?_⟩⟩
  · have linked := linked_passes root hs
    exact ⟨linked, s.isActive_eq ▸ linked.active_iff⟩
  have shown := shown_of_traced traced root
  refine ⟨shown.length_eq, fun k g h hg hh => ?_, ?_⟩
  · have shows := shown.shows hg hh
    have around := (shown.linked.suffix (List.drop_suffix (k + 1) _)).active_iff
    rw [shows.isEmitting, Bool.and_eq_true, shows.unread, ← around]
    refine ⟨Iff.rfl, ?_, fun skipped => by rw [skipped, Bool.false_and]⟩
    rw [← Bool.not_eq_true, around]
    simp only [not_forall, exists_prop, Bool.not_eq_true]
  · intro s line after text rest reads parses decided line' text' rest' parses'
    have groups := groups_flush reads.flush
    exact handle_elseIf_of_decided (groups ▸ shown) (groups ▸ decided) parses parses'

/-- A group whose first branch does not hold, in the branch for all other cases. -/
theorem Session.first_branch_emitted_apply :
    ∃ x, Traced Session.new.settings (Session.new.entry "#ifdef a\n#else\n") x
        [[.otherwise, .guarded (.ok false)]] ∧
      ∃ g, x.state.groups = [g] ∧ g.isEmitting = true := by
  let env := Session.new.settings
  let root := Session.new.entry "#ifdef a\n#else\n"
  let x : Point := ⟨root.frame.afterLine ⟨"#else\n".toList, ⟨9, 2, 1⟩⟩, ⟨.empty,
    #[⟨"shader", "#ifdef a\n#else\n"⟩], #[.lineEnd 0 8],
    [⟨true, false, false, false, ⟨"shader", 1, 1⟩⟩], ["shader"], [], #[]⟩⟩
  let y : Point := ⟨root.frame.afterLine ⟨[], ⟨15, 3, 1⟩⟩, ⟨.empty,
    #[⟨"shader", "#ifdef a\n#else\n"⟩], #[.lineEnd 0 8, .lineEnd 0 14],
    [⟨true, true, true, true, ⟨"shader", 1, 1⟩⟩], ["shader"], [], #[]⟩⟩
  have stepIf : root.step env = (.next x.frame, x.state) := by cbv
  have readsIf : AtDirective root.frame root.state root.state ⟨"#ifdef a", [8]⟩
      ⟨"#else\n".toList, ⟨9, 2, 1⟩⟩ :=
    ⟨rfl, ⟨⟨.punct, "#"⟩, ⟨"ifdef a\n#else\n".toList, ⟨1, 1, 2⟩⟩, by cbv, by cbv, by cbv⟩, by cbv⟩
  have stepElse : x.step env = (.next y.frame, y.state) := by cbv
  have readsElse : AtDirective x.frame x.state x.state ⟨"#else", [14]⟩ ⟨[], ⟨15, 3, 1⟩⟩ :=
    ⟨rfl, ⟨⟨.punct, "#"⟩, ⟨"else\n".toList, ⟨10, 2, 2⟩⟩, by cbv, by cbv, by cbv⟩, by cbv⟩
  have history : (x.state.move x.frame.origin "#else").record
      ((root.state.move root.frame.origin "#ifdef a").record []) =
      [[.otherwise, .guarded (.ok false)]] := by cbv
  have traced := Traced.line (Traced.line .root readsIf stepIf) readsElse stepElse
  rw [history] at traced
  have reached : Reached env root y := reached_iff.2 (.tail (.single (.next stepIf)) (.next stepElse))
  have emits := (((Session.first_branch_emitted Session.new "#ifdef a\n#else\n").2 y reached).2 _
    traced).2.1 0 ⟨true, true, true, true, ⟨"shader", 1, 1⟩⟩ _ rfl rfl
  exact ⟨y, traced, _, rfl, emits.1.2 ⟨fun _ h => absurd h List.not_mem_nil, rfl⟩⟩

end Preprocess

end ShaderPass
