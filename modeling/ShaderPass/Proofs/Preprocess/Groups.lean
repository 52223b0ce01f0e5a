import ShaderPass.Proofs.Directive.Words
import ShaderPass.Proofs.Preprocess.Reach
import ShaderPass.Proofs.Preprocess.Step

/-!
# Proofs/Preprocess/Groups — what a line does to the open groups

    #if c    opens a branch        gs       ──▸  opened :: gs
    #elif c  goes on with one      g :: gs  ──▸  g.further :: gs
    #else    goes on with one      g :: gs  ──▸  g.further :: gs
    #endif   ends the group        g :: gs  ──▸  gs

A line makes one **move** on the open groups, which is read off the line and the state alone
(`groups_of_handle`).  A move other than opening needs a group of the unit that the line is in.  So
the groups that were open where a unit began stay below those of the unit, untouched
(`within_next`), and are what is left at its end (`groups_of_runs`).
-/

namespace ShaderPass

/-- What begins a branch of a group: a directive that opens the group in skipped text, which nobody
reads; a condition, with what comes of it where it stands; or the directive for all other cases. -/
inductive Branch
  | unread
  | guarded (value : Except Preprocess.ConditionCause Bool)
  | otherwise

/-- Whether a branch is chosen where its group chooses one and none before it is. -/
def Branch.holds : Branch → Bool
  | .unread => false
  | .guarded (.ok holds) => holds
  | .guarded (.error _) => false
  | .otherwise => true

namespace Group

/-- Whether text inside some open groups, innermost first, is emitted. -/
def active : List Group → Bool
  | [] => true
  | g :: _ => g.isEmitting

/-- The group in a further branch. -/
def further (g : Group) : Branch → Group
  | .otherwise => g.otherwise
  | b => g.elseIf b.holds

theorem further_guarded (g : Group) (value : Except Preprocess.ConditionCause Bool) :
    g.further (.guarded value) = g.elseIf (Branch.guarded value).holds := rfl

/-- A branch that can no longer be chosen is all the same to its group. -/
theorem elseIf_of_decided {g : Group} (h : g.isUndecided = false) (c : Bool) :
    g.elseIf c = g.elseIf false := by
  rw [elseIf, elseIf, h, Bool.false_and, Bool.false_and]

end Group

namespace Preprocess

open Macro (Token Origin Table)
open Directive (parse? wordOf openingWords groupWords innerWords)

variable {env : Settings} {f f' : Frame} {s s₁ s' t : State} {o : Outcome} {x : Point}
  {outer : List Group}

/-- What a line does to the open groups. -/
inductive Move
  | none
  | opening (b : Branch)
  | branch (b : Branch)
  | ending

namespace Move

/-- The move of a directive. -/
def ofDirective (macros : Table) (origin : Origin) : Directive → Move
  | .openGroup guard => .opening (.guarded (guardHolds macros origin guard))
  | .elseIf text => .branch (.guarded (conditionHolds macros origin text))
  | .otherwise => .branch .otherwise
  | .endGroup => .ending
  | _ => .none

/-- Whether a move is about a group that is open. -/
def IsInner : Move → Prop
  | .branch _ | .ending => True
  | .none | .opening _ => False

/-- The groups after a move that is made at a position. -/
def regroup (position : Source.Position) : Move → List Group → List Group
  | .opening b, gs => .opened (Group.active gs) b.holds position :: gs
  | .branch b, g :: gs => g.further b :: gs
  | .ending, _ :: gs => gs
  | _, gs => gs

end Move

/-- The move of a line: in skipped text, a line that opens a group is known by its word alone. -/
def State.move (s : State) (origin : Origin) (line : String) : Move :=
  if s.isActive = false ∧ wordOf line ∈ openingWords then .opening .unread
  else
    match parse? line with
    | some (d, _) => .ofDirective s.macros origin d
    | none => .none

theorem State.isActive_eq (s : State) : s.isActive = Group.active s.groups := by
  unfold State.isActive Group.active
  cases s.groups <;> rfl

theorem State.groupAbove?_eq_some {depth : Nat} {g : Group} (h : s.groupAbove? depth = some g) :
    depth < s.groups.length ∧ ∃ gs, s.groups = g :: gs := by
  unfold State.groupAbove? at h
  split at h
  next hlt => exact ⟨hlt, List.head?_eq_some_iff.1 h⟩
  next => cases h

/-! ## The move of a line -/

/-- A directive that opens a group is known by a word that does. -/
theorem wordOf_mem_openingWords {line : String} {guard : Guard} {rest : List Char}
    (h : parse? line = some (.openGroup guard, rest)) : wordOf line ∈ openingWords := by
  have hword := Directive.wordOf_mem_spellings h
  cases guard <;> simp_all [Directive.spellings, openingWords]

/-- A line that is known by no word of groups makes no move. -/
theorem move_of_not_mem_groupWords {line : String} {origin : Origin} (h : wordOf line ∉ groupWords) :
    s.move origin line = .none := by
  have subset : openingWords ⊆ groupWords := by decide
  have hopening : wordOf line ∉ openingWords := fun hw => h (subset hw)
  rw [State.move, if_neg fun hw => hopening hw.2]
  split
  next d rest hparse =>
    have hword := Directive.wordOf_mem_spellings hparse
    cases d with
    | openGroup guard => exact absurd (wordOf_mem_openingWords hparse) hopening
    | elseIf | otherwise | endGroup =>
      rw [List.mem_singleton.1 hword] at h
      exact absurd (by decide) h
    | define | undefine | splice | stop | once | passThrough | nothing => rfl
  next => rfl

/-- A directive that counts makes its move. -/
theorem groups_of_obeys {origin : Origin} {d : Directive} (h : Obeys env f origin s d s')
    (active : ∀ guard, d = .openGroup guard → s.isActive = true) :
    s'.groups = (Move.ofDirective s.macros origin d).regroup (s.position origin) s.groups ∧
      ((Move.ofDirective s.macros origin d).IsInner → f.depth < s.groups.length) := by
  cases h with
  | @openGroup guard holds value =>
    refine ⟨?_, False.elim⟩
    rw [Move.ofDirective, Move.regroup, ← s.isActive_eq, active guard rfl, value]
    rfl
  | @elseIf text g holds above value =>
    obtain ⟨hlt, gs, hgs⟩ := State.groupAbove?_eq_some above
    refine ⟨?_, fun _ => hlt⟩
    rw [Move.ofDirective, State.setGroup, hgs, Move.regroup, Group.further_guarded, List.tail_cons]
    cases undecided : g.isUndecided with
    | true => rw [value undecided, Branch.holds]
    | false => rw [Group.elseIf_of_decided undecided, Group.elseIf_of_decided undecided (Branch.holds _)]
  | otherwise above =>
    obtain ⟨hlt, gs, hgs⟩ := State.groupAbove?_eq_some above
    refine ⟨?_, fun _ => hlt⟩
    rw [State.setGroup, hgs]
    rfl
  | endGroup above =>
    obtain ⟨hlt, gs, hgs⟩ := State.groupAbove?_eq_some above
    refine ⟨?_, fun _ => hlt⟩
    rw [State.closeGroup, hgs]
    rfl
  | define =>
    refine ⟨?_, False.elim⟩
    rw [State.define]
    split <;> rfl
  | undefine | notSpliced | once | passThrough | nothing => exact ⟨rfl, False.elim⟩

/-- **A line that does not fail makes its move**, and one that is about a group that is open is about
a group of its unit. -/
theorem groups_of_handle {origin : Origin} {line : String}
    (h : handle env f origin line s = .ok (.proceed s')) :
    s'.groups = (s.move origin line).regroup (s.position origin) s.groups ∧
      ((s.move origin line).IsInner → f.depth < s.groups.length) := by
  cases handles_of_handle h with
  | skipped _ word =>
    rw [move_of_not_mem_groupWords word]
    exact ⟨rfl, False.elim⟩
  | opensSkipped inactive word =>
    rw [State.move, if_pos ⟨inactive, word⟩, Move.regroup, ← s.isActive_eq, inactive]
    exact ⟨rfl, False.elim⟩
  | obeys reads parses obeys =>
    rw [State.move, if_neg reads, parses]
    refine groups_of_obeys obeys fun guard hd => ?_
    subst hd
    exact Bool.not_eq_false _ ▸ fun inactive => reads ⟨inactive, wordOf_mem_openingWords parses⟩

/-- A line that is about an open group is read in skipped text as well. -/
theorem handle_of_innerWord {origin : Origin} {line : String} (h : wordOf line ∈ innerWords) :
    handle env f origin line s =
      match parse? line with
      | none => .error (.ofBadLine (wordOf line) line)
      | some (d, _) => obey env f origin s d := by
  obtain ⟨hgroup, hopening⟩ := Directive.mem_innerWords.1 h
  exact (if_neg fun skipped => skipped.2 hgroup).trans (if_neg fun opens => hopening opens.2)

theorem handle_of_elseIf {origin : Origin} {line text : String} {rest : List Char}
    (h : parse? line = some (.elseIf text, rest)) :
    handle env f origin line s = obey env f origin s (.elseIf text) := by
  have hword := List.mem_singleton.1 (Directive.wordOf_mem_spellings h)
  rw [handle_of_innerWord (hword ▸ by decide), h]

/-! ## The move of a step -/

/-- A step that goes on makes the move of its line, if it is over a directive line. -/
theorem groups_of_next (h : step env f s = (.next f', s')) :
    (∃ l c, AtLexeme f s l c ∧ s'.groups = s.groups) ∨
      ∃ s₁ line after, AtDirective f s s₁ line after ∧
        s'.groups = (s₁.move f.origin line.text).regroup (s₁.position f.origin) s.groups ∧
        ((s₁.move f.origin line.text).IsInner → f.depth < s.groups.length) := by
  cases step_cases h with
  | @directive s₁ s₂ line after reads handle =>
    refine .inr ⟨s₁, line, after, reads, ?_⟩
    have moves := groups_of_handle handle
    rw [groups_flush reads.flush] at moves
    rw [State.emitLineEnds_eq]
    exact moves
  | token reads => exact .inl ⟨_, _, reads, rfl⟩
  | skippedLineEnd reads => exact .inl ⟨_, _, reads, rfl⟩
  | skipped reads => exact .inl ⟨_, _, reads, rfl⟩

theorem groups_of_splice {i : Inclusion} {ends : List Nat}
    (h : step env f s = (.splice i ends f', s')) : s'.groups = s.groups := by
  cases step_cases h with
  | splice reads => exact groups_flush reads.flush

/-- A step that ends its unit finds no group of the unit, and leaves the groups. -/
theorem groups_of_finished (h : step env f s = (.finished, s')) :
    s'.groups = s.groups ∧ s.groups.length ≤ f.depth := by
  cases step_cases h with
  | @finish s₁ _ flush closed =>
    have groups := groups_flush flush
    rw [State.outermostAbove?, List.getElem?_eq_none_iff, List.length_reverse, groups] at closed
    exact ⟨groups, closed⟩

/-- A step that fails closes some of the groups at most. -/
theorem groups_of_failed {e : Error} (h : step env f s = (.failed e, s')) :
    s'.groups <:+ s.groups := by
  cases step_cases h with
  | failed => exact List.suffix_refl _
  | failedAfter flush => exact groups_flush flush ▸ List.suffix_refl _
  | unterminated flush =>
    rw [State.closeAbove, groups_flush flush]
    exact List.drop_suffix _ _

/-! ## The groups around a unit -/

/-- The groups of a unit are open inside others, as many as there were where the unit began. -/
def Frame.Within (f : Frame) (outer : List Group) (s : State) : Prop :=
  ∃ own, s.groups = own ++ outer ∧ outer.length = f.depth

theorem within_entry (s : State) (i : Inclusion) :
    (s.entry i).frame.Within s.groups (s.entry i).state := ⟨[], rfl, rfl⟩

/-- A move that is made among the groups of a unit stays among them. -/
theorem Move.regroup_append (m : Move) (position : Source.Position) {own : List Group}
    (h : m.IsInner → own ≠ []) (outer : List Group) :
    ∃ own', m.regroup position (own ++ outer) = own' ++ outer := by
  cases m with
  | none => exact ⟨own, rfl⟩
  | opening b => exact ⟨_ :: own, rfl⟩
  | branch b =>
    obtain ⟨g, gs, rfl⟩ := List.exists_cons_of_ne_nil (h trivial)
    exact ⟨_ :: gs, rfl⟩
  | ending =>
    obtain ⟨g, gs, rfl⟩ := List.exists_cons_of_ne_nil (h trivial)
    exact ⟨gs, rfl⟩

/-- **A step leaves the groups around its unit as they are.** -/
theorem within_next (hf : f.Within outer s) (h : step env f s = (.next f', s')) :
    f'.Within outer s' := by
  obtain ⟨own, groups, depth⟩ := hf
  rw [← (step_next h).1.depth] at depth
  rcases groups_of_next h with ⟨-, -, -, same⟩ | ⟨s₁, line, after, -, moves, inner⟩
  · exact ⟨own, same.trans groups, depth⟩
  · have own_ne_nil : (s₁.move f.origin line.text).IsInner → own ≠ [] := by
      rintro hinner rfl
      have hlt := inner hinner
      rw [groups, List.nil_append, depth, (step_next h).1.depth] at hlt
      exact Nat.lt_irrefl _ hlt
    obtain ⟨own', hown'⟩ := Move.regroup_append _ (s₁.position f.origin) own_ne_nil outer
    exact ⟨own', moves.trans (groups ▸ hown'), depth⟩

/-- **The run of a unit leaves the groups that were open where the unit began.** -/
theorem groups_of_runs (h : Runs env x t) : ∀ {outer}, x.frame.Within outer x.state →
    t.groups = outer := by
  induction h with
  | finish step =>
    rintro outer ⟨own, groups, depth⟩
    obtain ⟨same, length⟩ := groups_of_finished step
    rw [groups, List.length_append, depth] at length
    have hown : own = [] := List.length_eq_zero_iff.1 (by omega)
    rw [same, groups, hown, List.nil_append]
  | next step _ ih =>
    intro outer hx
    exact ih (within_next hx step)
  | @splice x f' s' s'' t i ends step _ _ ih ih' =>
    rintro outer ⟨own, groups, depth⟩
    have spliced : s''.groups = s'.groups := ih (within_entry s' i)
    refine ih' ⟨own, ?_, depth.trans (step_splice step).1.depth.symm⟩
    rw [State.emitLineEnds_eq]
    exact (spliced.trans (groups_of_splice step)).trans groups

/-- What is spliced in leaves the groups as they are. -/
theorem groups_of_resume {i : Inclusion} {ends : List Nat} {s'' : State}
    (step : step env f s = (.splice i ends f', s')) (run : (s'.entry i).run env = (none, s'')) :
    (s''.emitLineEnds f.unit ends).groups = s.groups := by
  rw [State.emitLineEnds_eq]
  exact (groups_of_runs (runs_iff.2 run) (within_entry s' i)).trans (groups_of_splice step)

end Preprocess

end ShaderPass
