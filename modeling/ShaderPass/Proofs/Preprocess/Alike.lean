import ShaderPass.Preprocess.Session
import ShaderPass.Proofs.Macro.Equations
import ShaderPass.Proofs.Preprocess.Step

/-!
# Proofs/Preprocess/Alike — what a run asks of the macros is what each name means

    s  ──step──▸ · ──step──▸ · ──splice──▸ ⋯ ──▸ finished, or failed
    ≈            ≈           ≈                    ≈
    s' ──step──▸ · ──step──▸ · ──splice──▸ ⋯ ──▸ finished, or failed with the same

Two tables **agree** where every name means the same in both, in whatever order the macros stand in
them.  Expansion and conditions cannot tell such tables apart (`Table.Agrees.expand`,
`Table.Agrees.conditionHolds`), and neither can a run: from states that are **alike** but for that, and
for the notices, each step has the same outcome, and so has the whole run (`State.Alike.run`).  Of the
settings only the texts of the library and the base directory count; the names of the predefined macros
make nothing but notices.
-/

namespace ShaderPass

open Lexeme (Cursor)
open Macro (Table Token Origin)

/-! ## Tables -/

namespace Macro

variable {table table' : Table}

/-- Arguments that expand alike one by one expand alike one after the other. -/
theorem mapM_expand_congr {args : List (List Token)}
    (h : ∀ a : { a // a ∈ args }, expand table' a.1 = expand table a.1) :
    args.mapM (expand table') = args.mapM (expand table) := by
  rw [← mapM_attach table', ← mapM_attach table, funext h]

/-- Whether every name means the same in two tables. -/
def Table.Agrees (table table' : Table) : Prop := ∀ name, table'.get? name = table.get? name

namespace Table.Agrees

/-- Tables that agree do so after the same definition. -/
theorem define (h : table.Agrees table') (d : Definition) :
    (table.define d).Agrees (table'.define d) := fun name => by
  rw [get?_define, get?_define, h name]

/-- Tables that agree do so without the same name. -/
theorem undefine (h : table.Agrees table') (name : String) :
    (table.undefine name).Agrees (table'.undefine name) := fun other => by
  rw [get?_undefine, get?_undefine, h other]

theorem isDefined (h : table.Agrees table') (name : String) :
    table'.isDefined name = table.isDefined name := congrArg Option.isSome (h name)

theorem applicable (h : table.Agrees table') (t : Token) :
    table'.applicable t = table.applicable t := by rw [Table.applicable, Table.applicable, h]

/-- **Expansion is the same, whether it fails or not, where every name means the same.** -/
theorem expand (h : table.Agrees table') (queue : List Token) :
    Macro.expand table' queue = Macro.expand table queue := by
  induction queue using expand.induct table with
  | case1 => rw [Macro.expand, Macro.expand]
  | case2 t ts hd ih =>
    rw [expand_of_keeps (keeps_of_none ((h.applicable t).trans hd)),
      expand_of_keeps (keeps_of_none hd), ih]
  | case3 t ts d hd hp ih =>
    rw [expand_object ((h.applicable t).trans hd) hp, expand_object hd hp, ih]
  | case4 t ts d hd hp ho ih =>
    rw [expand_call ((h.applicable t).trans hd) hp, expand_call hd hp, ho]
    simp only [ih]
  | case5 t ts d hd hp inside ho ha =>
    rw [expand_call ((h.applicable t).trans hd) hp, expand_call hd hp, ho]
    simp only [ha]
  | case6 t ts d hd hp inside ho args tail ha hne =>
    rw [expand_call ((h.applicable t).trans hd) hp, expand_call hd hp, ho]
    simp only [ha, if_pos hne]
  | case7 t ts d hd hp inside ho args tail ha hne fault hm ihArgs =>
    have each := mapM_expand_congr ihArgs
    rw [mapM_attach] at hm
    rw [expand_call ((h.applicable t).trans hd) hp, expand_call hd hp, ho]
    simp only [ha, if_neg hne, each, hm]
  | case8 t ts d hd hp inside ho args tail ha hne expanded hm ihArgs ih =>
    have each := mapM_expand_congr ihArgs
    rw [mapM_attach] at hm
    rw [expand_call ((h.applicable t).trans hd) hp, expand_call hd hp, ho]
    simp only [ha, if_neg hne, each, hm]
    exact ih

end Table.Agrees

end Macro

namespace Preprocess

variable {env env' : Settings} {f : Frame} {s s₁ s' : State} {origin : Origin} {macros macros' : Table}

/-! ## Conditions -/

/-- Whether names are defined is the same for tables that agree. -/
theorem replaceDefined_congr (h : macros.Agrees macros') (ts : List Token) :
    replaceDefined macros' ts = replaceDefined macros ts := by
  induction ts using replaceDefined.induct macros with
  | case1 => rw [replaceDefined, replaceDefined]
  | case2 t ts hdefined cause hname =>
    rw [replaceDefined, replaceDefined, if_pos hdefined, if_pos hdefined, hname]
  | case3 t ts hdefined name rest hname ih =>
    rw [replaceDefined, replaceDefined, if_pos hdefined, if_pos hdefined, hname]
    simp only [h.isDefined, ih]
  | case4 t ts hdefined ih =>
    rw [replaceDefined, replaceDefined, if_neg hdefined, if_neg hdefined, ih]

/-- **A condition holds, fails to hold or cannot be read alike where every name means the same.** -/
theorem conditionHolds_congr (h : macros.Agrees macros') (origin : Origin) (text : String) :
    conditionHolds macros' origin text = conditionHolds macros origin text := by
  simp only [conditionHolds, replaceDefined_congr h, h.expand]

/-- **A condition holds alike for tables that agree.** -/
theorem guardHolds_congr (h : macros.Agrees macros') (origin : Origin) (guard : Guard) :
    guardHolds macros' origin guard = guardHolds macros origin guard := by
  cases guard with
  | defined name => exact congrArg Except.ok (h.isDefined name)
  | undefined name => exact congrArg (fun b => Except.ok !b) (h.isDefined name)
  | condition text => exact conditionHolds_congr h origin text

/-! ## States that are alike -/

/-- Whether a state differs from another in nothing but the notices and in how its macros are put,
where every name means the same. -/
inductive State.Alike (s : State) : State → Prop
  | intro {macros : Table} {notices : Array Notice} (agrees : s.macros.Agrees macros) :
      Alike s { s with macros, notices }

/-- Whether two settings have the same texts and the same base directory. -/
structure Settings.Alike (env env' : Settings) : Prop where
  texts : ∀ path, env'.library.text? path = env.library.text? path
  basePath : env'.basePath = env.basePath

/-- Whether effects are the same on states that are alike. -/
inductive Effect.Alike : Effect → Effect → Prop
  | proceed {s s' : State} (h : s.Alike s') : Alike (.proceed s) (.proceed s')
  | splice (i : Inclusion) : Alike (.splice i) (.splice i)

/-- Whether two computations fail with the same, or succeed with what is related. -/
inductive SameResult {ε α : Type} (R : α → α → Prop) : Except ε α → Except ε α → Prop
  | error (e : ε) : SameResult R (.error e) (.error e)
  | ok {a b : α} (h : R a b) : SameResult R (.ok a) (.ok b)

/-- Whether two computations on states have the same outcome, and leave states that are alike. -/
inductive SameOutcome {α : Type} : α × State → α × State → Prop
  | intro (outcome : α) {s s' : State} (left : s.Alike s') : SameOutcome (outcome, s) (outcome, s')

theorem SameOutcome.exists_eq {α : Type} {r r' : α × State} {outcome : α}
    (h : SameOutcome r r') (hr : r = (outcome, s)) : ∃ s', r' = (outcome, s') ∧ s.Alike s' := by
  subst hr
  cases h with
  | intro _ left => exact ⟨_, rfl, left⟩

namespace State.Alike

theorem agrees (h : s.Alike s') : s.macros.Agrees s'.macros := by
  cases h
  assumption

theorem position (h : s.Alike s') : s'.position = s.position := by
  cases h
  rfl

theorem isActive (h : s.Alike s') : s'.isActive = s.isActive := by
  cases h
  rfl

theorem mode (h : s.Alike s') : s'.mode = s.mode := by
  rw [State.mode, State.mode, h.isActive]

theorem openGroup (h : s.Alike s') (g : Group) : (s.openGroup g).Alike (s'.openGroup g) := by
  cases h with
  | intro agrees => exact .intro agrees

/-- What is put out is put out alike. -/
theorem emit (h : s.Alike s') (e : Emission) : (s.emit e).Alike (s'.emit e) := by
  cases h with
  | intro agrees => exact .intro agrees

theorem emitTokens (h : s.Alike s') (tokens : List Token) :
    (tokens.foldl State.emitToken s).Alike (tokens.foldl State.emitToken s') := by
  induction tokens generalizing s s' with
  | nil => exact h
  | cons t ts ih => exact ih (h.emit _)

theorem emitLineEnds (h : s.Alike s') (unit : Nat) (ends : List Nat) :
    (s.emitLineEnds unit ends).Alike (s'.emitLineEnds unit ends) := by
  unfold State.emitLineEnds
  induction ends generalizing s s' with
  | nil => exact h
  | cons o os ih => exact ih (h.emit _)

theorem note (h : s.Alike s') (n : Notice) : (s.note n).Alike (s'.note n) := by
  cases h with
  | intro agrees => exact .intro agrees

/-- Which macros are predefined makes a notice at most. -/
theorem define (h : s.Alike s') (env env' : Settings) (position : Source.Position)
    (d : Macro.Definition) : (s.define env position d).Alike (s'.define env' position d) := by
  cases h with
  | intro agrees =>
    unfold State.define
    split
    next => split <;> exact .intro (agrees.define d)
    next => split <;> exact .intro (agrees.define d)

/-- **Tokens that wait are expanded and put out alike.** -/
theorem flush (h : s.Alike s') (f : Frame) :
    SameResult State.Alike (Preprocess.flush f s) (Preprocess.flush f s') := by
  rw [Preprocess.flush, Preprocess.flush, h.agrees.expand]
  cases h with
  | intro agrees =>
    cases Macro.expand s.macros f.waiting.reverse with
    | error fault => exact .error _
    | ok tokens => exact .ok (emitTokens (.intro agrees) tokens)

end State.Alike

/-! ## Directives that are obeyed alike -/

/-- A path is looked up alike. -/
theorem Settings.Alike.resolve? (h : env.Alike env') (directory path : String) :
    env'.library.resolve? directory env'.basePath path =
      env.library.resolve? directory env.basePath path := by
  have contains : env'.library.contains = env.library.contains :=
    funext fun path => congrArg Option.isSome (h.texts path)
  rw [Library.resolve?, Library.resolve?, contains, h.basePath]

theorem spliceIn_alike (henv : env.Alike env') (h : s.Alike s') (position : Source.Position)
    (path : String) : SameResult Effect.Alike (spliceIn env f position path s)
      (spliceIn env' f position path s') := by
  cases h with
  | intro agrees =>
    unfold spliceIn
    rw [henv.resolve?]
    cases env.library.resolve? f.directory env.basePath path with
    | none => exact .error _
    | some resolved =>
      simp only [henv.texts]
      split
      next => exact .error _
      next =>
        split
        next => exact .ok (.proceed (.note (.intro agrees) _))
        next => exact .ok (.splice _)

/-- **A directive is obeyed alike.** -/
theorem obey_alike (henv : env.Alike env') (h : s.Alike s') (d : Directive) :
    SameResult Effect.Alike (obey env f origin s d) (obey env' f origin s' d) := by
  cases h with
  | @intro macros notices agrees =>
    have same : s.Alike { s with macros, notices } := .intro agrees
    cases d with
    | define name params body =>
      simp only [obey]
      cases readDefinition name params body with
      | error cause => exact .error cause
      | ok d => exact .ok (.proceed (same.define env env' _ d))
    | splice path => exact spliceIn_alike henv same (s.position origin) path
    | undefine name => exact .ok (.proceed (.intro (agrees.undefine name)))
    | openGroup guard =>
      simp only [obey, guardHolds_congr agrees]
      split
      next => exact .error _
      next => exact .ok (.proceed (.intro agrees))
    | elseIf text =>
      simp only [obey, conditionHolds_congr agrees, State.groupAbove?]
      split
      next => exact .error _
      next =>
        split
        next => exact .error _
        next =>
          split
          next =>
            split
            next => exact .error _
            next => exact .ok (.proceed (.intro agrees))
          next => exact .ok (.proceed (.intro agrees))
    | otherwise =>
      simp only [obey, State.groupAbove?]
      split
      next => exact .error _
      next =>
        split
        next => exact .error _
        next => exact .ok (.proceed (.intro agrees))
    | endGroup =>
      simp only [obey, State.groupAbove?]
      split
      next => exact .error _
      next => exact .ok (.proceed (.intro agrees))
    | stop message => exact .error _
    | once | passThrough | nothing => exact .ok (.proceed (.intro agrees))

/-- **A directive has the same effect**, whatever it is. -/
theorem handle_alike (henv : env.Alike env') (h : s.Alike s') (line : String) :
    SameResult Effect.Alike (handle env f origin line s) (handle env' f origin line s') := by
  simp only [handle, h.isActive, h.position]
  split
  next => exact .ok (.proceed h)
  next =>
    split
    next => exact .ok (.proceed (h.openGroup _))
    next =>
      split
      next => exact .error _
      next d _ _ => exact obey_alike henv h d

/-! ## Runs that go alike -/

theorem stepEnd_alike (h : s.Alike s') (f : Frame) : SameOutcome (stepEnd f s) (stepEnd f s') := by
  have flushes := h.flush f
  unfold stepEnd
  generalize flush f s = r at flushes
  generalize flush f s' = r' at flushes
  cases flushes with
  | error e => exact .intro _ h
  | ok left =>
    cases left with
    | intro agrees =>
      simp only [State.outermostAbove?]
      split
      next => exact .intro _ (.intro agrees)
      next => exact .intro _ (.intro agrees)

/-- A directive line is a step to states alike. -/
theorem stepDirective_alike (henv : env.Alike env') (h : s.Alike s') (f : Frame) (c : Cursor) :
    SameOutcome (stepDirective env f c s) (stepDirective env' f c s') := by
  have flushes := h.flush f
  unfold stepDirective
  generalize flush f s = r at flushes
  generalize flush f s' = r' at flushes
  cases flushes with
  | error e => exact .intro _ h
  | @ok s₁ s₁' left =>
    simp only [left.position]
    split
    next => exact .intro _ left
    next line after _ =>
      have handles : SameResult Effect.Alike (handle env f f.origin line.text s₁)
          (handle env' f f.origin line.text s₁') := handle_alike henv left line.text
      generalize handle env f f.origin line.text s₁ = r at handles
      generalize handle env' f f.origin line.text s₁' = r' at handles
      cases handles with
      | error cause => exact .intro _ left
      | ok effects =>
        cases effects with
        | proceed left => exact .intro _ (left.emitLineEnds _ _)
        | splice i => exact .intro _ left

theorem stepLexeme_alike (h : s.Alike s') (f : Frame) (l : Lexeme) (c : Cursor) :
    SameOutcome (stepLexeme f l c s) (stepLexeme f l c s') := by
  unfold stepLexeme
  rw [h.isActive]
  split
  next => exact .intro _ h
  next =>
    split
    next => exact .intro _ (h.emit _)
    next => exact .intro _ h

/-- **A step has the same outcome from states that are alike**, and leaves such states. -/
theorem step_alike (henv : env.Alike env') (h : s.Alike s') (f : Frame) :
    SameOutcome (step env f s) (step env' f s') := by
  simp only [step, h.mode, h.position]
  cases f.cursor.next s.mode with
  | error fault => exact .intro _ h
  | ok next =>
    cases next with
    | none => exact stepEnd_alike h f
    | some read =>
      simp only
      split
      next => exact stepDirective_alike henv h f _
      next => exact stepLexeme_alike h f _ _

/-- A unit begins alike. -/
theorem State.Alike.begins (h : s.Alike s') (name text directory : String) :
    (begin s' name text directory).1 = (begin s name text directory).1 ∧
      (begin s name text directory).2.Alike (begin s' name text directory).2 := by
  cases h with
  | intro agrees => exact ⟨rfl, .intro agrees⟩

/-- Units are entered alike. -/
theorem State.Alike.enter (h : s.Alike s') (i : Inclusion) :
    (Preprocess.enter s' i).1 = (Preprocess.enter s i).1 ∧
      (Preprocess.enter s i).2.Alike (Preprocess.enter s' i).2 :=
  h.begins i.path i.text (VirtualPath.parent i.path)

/-- **A run fails alike or not at all from states that are alike**, and leaves such states. -/
theorem run_alike (henv : env.Alike env') (h : s.Alike s') (f : Frame) :
    SameOutcome (run env f s) (run env' f s') := by
  -- the outcome of a step decides how a run goes on, so the recursion of one run is that of both
  induction f, s using runToEnd.induct env generalizing s' with
  | case1 f s s₁ _ hk =>
    have first : step env f s = (.finished, s₁) := congrArg Subtype.val hk
    obtain ⟨s₁', first', left⟩ := (step_alike henv h f).exists_eq first
    rw [run_of_finished first, run_of_finished first']
    exact .intro none left
  | case2 f s e s₁ _ hk =>
    have first : step env f s = (.failed e, s₁) := congrArg Subtype.val hk
    obtain ⟨s₁', first', left⟩ := (step_alike henv h f).exists_eq first
    rw [run_of_failed first, run_of_failed first']
    exact .intro (some e) left
  | case3 f s f' s₁ _ hk ih =>
    have first : step env f s = (.next f', s₁) := congrArg Subtype.val hk
    obtain ⟨s₁', first', left⟩ := (step_alike henv h f).exists_eq first
    rw [run_of_next first, run_of_next first']
    exact ih left
  | case4 f s i ends f' s₁ _ hk e s₂ _ hr ih =>
    have first : step env f s = (.splice i ends f', s₁) := congrArg Subtype.val hk
    have spliced : run env (enter s₁ i).1 (enter s₁ i).2 = (some e, s₂) := congrArg Subtype.val hr
    obtain ⟨s₁', first', left⟩ := (step_alike henv h f).exists_eq first
    obtain ⟨frame, begun⟩ := left.enter i
    obtain ⟨s₂', spliced', left⟩ := (ih begun).exists_eq spliced
    rw [run_of_splice first, run_of_splice first', frame, spliced, spliced']
    exact .intro (some e) left
  | case5 f s i ends f' s₁ _ hk s₂ _ hr _ ih ih' =>
    have first : step env f s = (.splice i ends f', s₁) := congrArg Subtype.val hk
    have spliced : run env (enter s₁ i).1 (enter s₁ i).2 = (none, s₂) := congrArg Subtype.val hr
    obtain ⟨s₁', first', left⟩ := (step_alike henv h f).exists_eq first
    obtain ⟨frame, begun⟩ := left.enter i
    obtain ⟨s₂', spliced', left⟩ := (ih begun).exists_eq spliced
    rw [run_of_splice first, run_of_splice first', frame, spliced, spliced']
    exact ih' (left.emitLineEnds f.unit ends)

end Preprocess

end ShaderPass
