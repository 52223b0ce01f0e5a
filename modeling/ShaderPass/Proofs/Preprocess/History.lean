import Mathlib
import ShaderPass.Proofs.Preprocess.Alike
import ShaderPass.Proofs.Preprocess.Invariant
import ShaderPass.Proofs.Outcome
import ShaderPass.Proofs.Reuse

/-!
# Proofs/Preprocess/History — what a session remembers of what it was used for

    new ──predefine A──▸ · ──process──▸ · ──undef A, then fails──▸ · ──reset──▸ A alone
                                                     ╲
                                                      ──process──▸  as in any session with these macros

A session is used again and again, and what a source that failed leaves behind stays in it.  Of all
that only the macros count for the next source (`Session.Alike.runSource`), and for the macros after a
reset nothing counts but what was **last predefined** under each name (`get?_reset`), since bodies that
cannot be read are never taken in.
-/

namespace ShaderPass.Preprocess.Session

open Macro (Table Definition)

variable {p q : Session} {name : String} {body : Option String}

/-! ## The next source -/

/-- Whether two sessions are the same to the next source: every name means the same, every path leads
to the same text, and sources are read from one directory under one name. -/
structure Alike (p q : Session) : Prop where
  macros : p.macros.Agrees q.macros
  texts : ∀ path, q.library.text? path = p.library.text? path
  basePath : q.basePath = p.basePath
  rootUnit : q.rootUnit = p.rootUnit

/-- **A source runs alike in sessions that are alike**, whatever else was left in them. -/
theorem Alike.runSource (h : p.Alike q) (source : String) :
    SameOutcome (p.runSource source) (q.runSource source) := by
  have settings : p.settings.Alike q.settings := ⟨h.texts, h.basePath⟩
  have cleared : p.state.clear.Alike q.state.clear := by
    rw [clear_eq, clear_eq]
    exact @State.Alike.intro (.initial p.macros) q.macros #[] h.macros
  obtain ⟨frame, begun⟩ := cleared.begins p.rootUnit source p.basePath
  have runs := run_alike settings begun (begin p.state.clear p.rootUnit source p.basePath).1
  rw [← frame] at runs
  have ran : q.runSource source = run q.settings (begin q.state.clear p.rootUnit source p.basePath).1
      (begin q.state.clear p.rootUnit source p.basePath).2 := by
    rw [← h.rootUnit, ← h.basePath]
    rfl
  rw [ran]
  exact frame ▸ runs

/-! ## Histories -/

/-- What a session can be used for. -/
inductive Operation
  | setRootUnit (name : String)
  | predefine (name : String) (body : Option String)
  | tryProcess (source : String)
  | process (source : String)
  | takeSourceMap
  | reset (texts : List (String × String)) (basePath : String)
  deriving DecidableEq, Repr

/-- The session after it was used; one that cannot predefine a macro is what it was. -/
def perform (p : Session) : Operation → Session
  | .setRootUnit name => p.setRootUnit name
  | .predefine name body => (p.predefine name body).toOption.getD p
  | .tryProcess source => (p.tryProcess source).2.2
  | .process source => (p.process source).2.2
  | .takeSourceMap => p.takeSourceMap.2
  | .reset texts basePath => p.reset texts basePath

/-- What a new session becomes in the course of a history. -/
def after (history : List Operation) : Session := history.foldl perform new

/-- The macro of a name that an entry of predefined macros stands for. -/
def entryMacro? (name : String) (entry : String × String) : Option Definition :=
  if entry.1 = name then (Definition.read entry.1 none entry.2).toOption else none

/-- The macro of a name that is predefined by an operation that does not fail. -/
def Operation.macro? (name : String) : Operation → Option Definition
  | .predefine name' body => entryMacro? name (name', body.getD defaultBody)
  | _ => none

/-- The last of what a function gives for the elements of a list. -/
def lastSome? {α β : Type} (f : α → Option β) (as : List α) : Option β := as.reverse.findSome? f

/-- The macro that was last predefined under a name. -/
def lastPredefined (history : List Operation) (name : String) : Option Definition :=
  lastSome? (Operation.macro? name) history

theorem lastSome?_append {α β : Type} (f : α → Option β) (as : List α) (a : α) :
    lastSome? f (as ++ [a]) = (f a).or (lastSome? f as) := by
  rw [lastSome?, List.reverse_append, List.reverse_singleton, List.singleton_append,
    List.findSome?_cons]
  cases f a <;> rfl

/-- Elements that a function gives nothing for can be left out. -/
theorem lastSome?_filter {α β : Type} {f : α → Option β} {keep : α → Bool}
    (h : ∀ a, keep a = false → f a = none) (as : List α) :
    lastSome? f (as.filter keep) = lastSome? f as := by
  induction as using List.reverseRecOn with
  | nil => rfl
  | append_singleton as a ih =>
    rw [List.filter_append, lastSome?_append, ← ih]
    cases hkeep : keep a with
    | false =>
      have dropped : [a].filter keep = [] := List.filter_cons_of_neg (ne_true_of_eq_false hkeep)
      rw [dropped, List.append_nil, h a hkeep, Option.none_or]
    | true =>
      have kept : [a].filter keep = [a] := List.filter_cons_of_pos hkeep
      rw [kept, lastSome?_append]

theorem after_append (history : List Operation) (operation : Operation) :
    after (history ++ [operation]) = (after history).perform operation := List.foldl_concat ..

/-- A macro that is read as a predefined one has its name and takes no argument list. -/
theorem read_object {text : String} {d : Definition} (h : Definition.read name none text = .ok d) :
    d.name = name ∧ d.params = none := by
  obtain ⟨lexemes, -, rfl⟩ := map_eq_ok.1 h
  exact ⟨rfl, rfl⟩

theorem object_of_entryMacro? {entry : String × String} {d : Definition}
    (h : entryMacro? name entry = some d) : d.params = none := by
  rw [entryMacro?] at h
  split at h
  next => exact (read_object (toOption_eq_some_iff.1 h)).2
  next => cases h

/-! ## Predefined macros -/

/-- A macro cannot be predefined where its body cannot be read. -/
theorem macro?_of_error {e : Error} (h : p.predefine name body = .error e) (name' : String) :
    (Operation.predefine name body).macro? name' = none := by
  unfold predefine at h
  simp only at h
  split at h
  next hread =>
    rw [Operation.macro?, entryMacro?, hread]
    exact ite_self none
  next => cases h

/-- A macro that is predefined can be read again, and comes after the others. -/
theorem predefined_of_ok (h : p.predefine name body = .ok q) :
    (∃ d, Definition.read name none (body.getD defaultBody) = .ok d) ∧
      q.predefined = p.predefined.filter (·.1 ≠ name) ++ [(name, body.getD defaultBody)] := by
  unfold predefine at h
  simp only at h
  split at h
  next => cases h
  next d hread =>
    cases h
    exact ⟨⟨d, hread⟩, rfl⟩

/-- **A session keeps the macros that were last predefined**, and no others. -/
theorem lastSome?_predefined_after (history : List Operation) (name : String) :
    lastSome? (entryMacro? name) (after history).predefined = lastPredefined history name := by
  induction history using List.reverseRecOn with
  | nil => rfl
  | append_singleton history operation ih =>
    rw [after_append, lastPredefined, lastSome?_append, ← lastPredefined, ← ih]
    cases operation with
    | predefine other body =>
      rw [perform]
      cases hp : (after history).predefine other body with
      | error e =>
        rw [macro?_of_error hp, Option.none_or]
        rfl
      | ok q =>
        obtain ⟨⟨d, hread⟩, predefined⟩ := predefined_of_ok hp
        rw [Except.toOption, Option.getD_some, predefined, lastSome?_append, Operation.macro?]
        by_cases h : other = name
        · have reads : entryMacro? name (other, body.getD defaultBody) = some d :=
            (if_pos h).trans (toOption_eq_some_iff.2 hread)
          rw [reads, Option.some_or, Option.some_or]
        · -- what the entry replaces has its name, so it is no macro of the other name
          have others : ∀ entry : String × String, decide (entry.1 ≠ other) = false →
              entryMacro? name entry = none := fun entry hentry =>
            if_neg fun he => h ((Decidable.not_not.1 (of_decide_eq_false hentry)).symm.trans he)
          rw [lastSome?_filter others]
    | process source =>
      obtain ⟨e, he⟩ := exists_process_eq (after history) source
      rw [perform, he]
      rfl
    | setRootUnit | tryProcess | takeSourceMap | reset => rfl

theorem get?_seed (macros : Table) (entry : String × String) (name : String) :
    (seed macros entry).get? name = (entryMacro? name entry).or (macros.get? name) := by
  unfold seed entryMacro?
  cases hread : Definition.read entry.1 none entry.2 with
  | error fault =>
    simp only [Except.toOption, ite_self, Option.none_or]
  | ok d =>
    simp only [Table.get?_define, (read_object hread).1, eq_comm]
    split
    next => rfl
    next => rfl

theorem get?_foldl_seed (macros : Table) (entries : List (String × String)) (name : String) :
    (entries.foldl seed macros).get? name =
      (lastSome? (entryMacro? name) entries).or (macros.get? name) := by
  induction entries using List.reverseRecOn with
  | nil => rfl
  | append_singleton entries entry ih =>
    rw [List.foldl_concat, get?_seed, ih, lastSome?_append, Option.or_assoc]

/-- **After a reset a name means what was last predefined under it.** -/
theorem get?_reset (history : List Operation) (texts : List (String × String))
    (basePath name : String) : ((after history).reset texts basePath).macros.get? name =
      lastPredefined history name := by
  have seeded : ((after history).reset texts basePath).macros =
    (after history).predefined.foldl seed .empty := rfl
  rw [seeded, get?_foldl_seed, lastSome?_predefined_after, Table.get?_empty, Option.or_none]

/-! ## What a session remembers -/

/-- **A source gives the same in sessions that are alike**, and leaves them alike. -/
theorem Alike.tryProcess (h : p.Alike q) (source : String) :
    (q.tryProcess source).1 = (p.tryProcess source).1 ∧
      (q.tryProcess source).2.2.sourceMap = (p.tryProcess source).2.2.sourceMap ∧
      (p.tryProcess source).2.2.Alike (q.tryProcess source).2.2 := by
  have runs := h.runSource source
  unfold Session.tryProcess
  generalize p.runSource source = r at runs
  generalize q.runSource source = r' at runs
  cases runs with
  | intro error left =>
    refine ⟨?_, ?_, ⟨left.agrees, h.texts, h.basePath, h.rootUnit⟩⟩
    · cases left with
      | intro => cases error <;> rfl
    · cases left with
      | intro => rfl

/-- After a reset no macro takes an argument list. -/
theorem params_of_mem_reset {history : List Operation} {texts : List (String × String)}
    {basePath : String} {d : Definition}
    (h : d ∈ ((after history).reset texts basePath).macros.entries) : d.params = none := by
  have names := (get?_reset history texts basePath d.name).symm.trans (Table.get?_of_mem h)
  obtain ⟨operation, -, hmacro⟩ := List.exists_of_findSome?_eq_some names
  cases operation with
  | predefine name body => exact object_of_entryMacro? hmacro
  | setRootUnit | tryProcess | process | takeSourceMap | reset => cases hmacro

/-- **Of all that a session was used for nothing is left but its macros, and after a reset but those
that were last predefined.**  The next source gives the same output or failure, with the same source
map, in all sessions that are alike, and leaves them alike.  After any history a reset gives each name
the macro that was last predefined under it, which takes no argument list, and to other names none.  A
macro is predefined where its body can be read, and an operation that fails to do it leaves no trace. -/
theorem remembers_macros :
    (∀ p q : Session, p.Alike q → ∀ source,
      (q.tryProcess source).1 = (p.tryProcess source).1 ∧
      (q.tryProcess source).2.2.sourceMap = (p.tryProcess source).2.2.sourceMap ∧
      (p.tryProcess source).2.2.Alike (q.tryProcess source).2.2) ∧
    ∀ history : List Operation,
      (∀ texts basePath name, ((after history).reset texts basePath).macros.get? name =
        lastPredefined history name) ∧
      (∀ texts basePath, ∀ d ∈ ((after history).reset texts basePath).macros.entries,
        d.params = none) ∧
      (∀ name body q, (after history).predefine name body = .ok q →
        ∃ d, Definition.read name none (body.getD defaultBody) = .ok d ∧
          (Operation.predefine name body).macro? name = some d) ∧
      ∀ name body e, (after history).predefine name body = .error e →
        (∀ other, (Operation.predefine name body).macro? other = none) ∧
        ∀ later, after (history ++ .predefine name body :: later) = after (history ++ later) := by
  refine ⟨fun p q h => h.tryProcess, fun history => ⟨get?_reset history, ?_, ?_, ?_⟩⟩
  · exact fun texts basePath d => params_of_mem_reset
  · intro name body q h
    obtain ⟨⟨d, hread⟩, -⟩ := predefined_of_ok h
    exact ⟨d, hread, (if_pos rfl).trans (toOption_eq_some_iff.2 hread)⟩
  · intro name body e h
    refine ⟨macro?_of_error h, fun later => ?_⟩
    have kept : (after history).perform (.predefine name body) = after history := by
      rw [perform, h]
      rfl
    rw [after, after, List.foldl_append, List.foldl_append, List.foldl_cons]
    exact congrArg (later.foldl perform) kept

/-- A session in which a predefined macro is undefined and a group left open, and another one. -/
theorem remembers_macros_apply :
    let history : List Operation := [.predefine "A" none, .predefine "B" (some "\""),
      .tryProcess "#undef A\n#define C 2\n#if 1\n"]
    let other : List Operation := [.process "#define C 2\n"]
    ((after other).tryProcess "A C").1 = ((after history).tryProcess "A C").1 ∧
      ((after history).reset [] "").macros.get? "A" = some ⟨"A", none, [⟨.number, "1"⟩]⟩ ∧
      ((after history).reset [] "").macros.get? "B" = none ∧
      ((after history).reset [] "").macros.get? "C" = none := by
  intro history other
  obtain ⟨same, each⟩ := remembers_macros
  obtain ⟨resets, -⟩ := each history
  have macros : (after other).macros = (after history).macros := by cbv
  have library : (after other).library = (after history).library := by cbv
  have alike : (after history).Alike (after other) :=
    ⟨fun _ => by rw [macros], fun _ => by rw [library], by cbv, by cbv⟩
  refine ⟨(same _ _ alike _).1, ?_, ?_, ?_⟩
  · exact (resets [] "" "A").trans (by cbv)
  · exact (resets [] "" "B").trans (by cbv)
  · exact (resets [] "" "C").trans (by cbv)

end ShaderPass.Preprocess.Session
