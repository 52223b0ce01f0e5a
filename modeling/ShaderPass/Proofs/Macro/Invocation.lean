import Mathlib
import ShaderPass.Preprocess.Step
import ShaderPass.Proofs.Macro.Equations

/-!
# Proofs/Macro/Invocation — an invocation becomes the body with its arguments expanded

    F ␣ ( a₁ , a₂ ) rest        a₁, a₂ expand to r₁, r₂
    └── written ──┘
    B [ p₁ := r₁, p₂ := r₂ ]  and then what rest becomes

The arguments that are read are those that are **written**: balanced pieces between commas, up to the
parenthesis that closes (`arguments_eq_some_iff`).  They go into the body all at once, as
`Definition.fill` says of lexemes (`lexemes_substitute`).  Where nothing in the body so filled names a
macro that could replace it, that is what comes out, and what follows the invocation is expanded by
itself; a list of another length than the parameters is a failure (`expand_invocation`).
-/

namespace ShaderPass

/-- What a name stands for in two lists put side by side is what stands where the name first does. -/
theorem lookup_zip {α : Type} (names : List String) (values : List α) (name : String) :
    (names.zip values).lookup name = (names.idxOf? name).bind (values[·]?) := by
  induction names generalizing values with
  | nil => rfl
  | cons n names ih =>
    cases values with
    | nil =>
      rw [List.zip_nil_right]
      cases (n :: names).idxOf? name <;> rfl
    | cons v values =>
      rw [List.zip_cons_cons, List.lookup_cons, List.idxOf?_cons]
      by_cases h : n = name
      · subst h
        simp
      · have h' : (name == n) = false := beq_false_of_ne (Ne.symm h)
        have h'' : (n == name) = false := beq_false_of_ne h
        rw [h', h'', ih]
        cases names.idxOf? name <;> rfl

namespace Macro

open Preprocess (Frame State flush)

variable {table : Table} {t u c : Token} {a ts inside written rest : List Token} {d : Definition}
  {args expanded : List (List Token)} {depth : Nat}

/-! ## Argument lists as they are written -/

/-- Whether tokens are what is left of an argument, `depth` parentheses inside it: all that are open
are closed and no others, and no comma stands outside of parentheses. -/
def IsArgument (depth : Nat) : List Token → Prop
  | [] => depth = 0
  | t :: ts => (depth = 0 → t.isPunct ')' = false ∧ t.isPunct ',' = false) ∧
    IsArgument (nesting depth t) ts

/-- Whether some arguments are **written** in tokens: with a comma after each but the last, and a
closing parenthesis after that. -/
inductive Written : List (List Token) → List Token → Prop
  | last {a : List Token} {closing : Token} (argument : IsArgument 0 a)
      (closes : closing.isPunct ')' = true) : Written [a] (a ++ [closing])
  | more {a ts : List Token} {args : List (List Token)} {comma : Token} (argument : IsArgument 0 a)
      (separates : comma.isPunct ',' = true) (rest : Written args ts) :
      Written (a :: args) (a ++ comma :: ts)

theorem isPunct_eq_false_of_ne {x y : Char} (h : t.isPunct x = true) (hne : x ≠ y) :
    t.isPunct y = false := by
  obtain ⟨-, htext⟩ := Bool.and_eq_true_iff.1 h
  refine Bool.and_eq_false_iff.2 (.inr (beq_false_of_ne fun he => hne ?_))
  have hlist := congrArg String.toList ((eq_of_beq htext).symm.trans he)
  simpa using hlist

theorem splitArguments_append (h : IsArgument depth a) (ts : List Token) :
    splitArguments depth (a ++ ts) = (splitArguments 0 ts).map fun (first, more, rest) =>
      (a.map Token.inLine ++ first, more, rest) := by
  induction a generalizing depth with
  | nil =>
    obtain rfl : depth = 0 := h
    rw [List.nil_append]
    cases splitArguments 0 ts <;> rfl
  | cons t a ih =>
    obtain ⟨outside, inside⟩ := h
    have noClosing : ¬(depth = 0 ∧ t.isPunct ')' = true) := fun ⟨h0, ht⟩ =>
      Bool.false_ne_true ((outside h0).1.symm.trans ht)
    have noComma : ¬(depth = 0 ∧ t.isPunct ',' = true) := fun ⟨h0, ht⟩ =>
      Bool.false_ne_true ((outside h0).2.symm.trans ht)
    rw [List.cons_append, splitArguments, if_neg noClosing, if_neg noComma, ih inside, Option.map_map]
    rfl

/-- Arguments that are written are read, with blanks for line ends. -/
theorem splitArguments_written (h : Written args written) (rest : List Token) :
    ∃ first more, args.map (·.map Token.inLine) = first :: more ∧
      splitArguments 0 (written ++ rest) = some (first, more, rest) := by
  induction h with
  | @last a closing argument closes =>
    refine ⟨a.map Token.inLine, [], rfl, ?_⟩
    rw [List.append_assoc, splitArguments_append argument, List.singleton_append, splitArguments,
      if_pos ⟨rfl, closes⟩]
    simp
  | @more a ts args comma argument separates _ ih =>
    obtain ⟨first, more, hargs, hread⟩ := ih
    have noClosing : ¬(0 = 0 ∧ comma.isPunct ')' = true) := fun h =>
      Bool.false_ne_true ((isPunct_eq_false_of_ne separates (by decide)).symm.trans h.2)
    refine ⟨a.map Token.inLine, first :: more, by rw [List.map_cons, hargs], ?_⟩
    rw [List.append_assoc, splitArguments_append argument, List.cons_append, splitArguments,
      if_neg noClosing, if_pos ⟨rfl, separates⟩, hread]
    simp

/-- What is read as arguments was written. -/
theorem exists_written {first rest : List Token} {more : List (List Token)}
    (h : splitArguments depth ts = some (first, more, rest)) :
    ∃ a tail, ts = a ++ tail ∧ IsArgument depth a ∧ first = a.map Token.inLine ∧
      ((∃ closing, closing.isPunct ')' = true ∧ tail = closing :: rest ∧ more = []) ∨
        ∃ comma args written, comma.isPunct ',' = true ∧ tail = comma :: (written ++ rest) ∧
          Written args written ∧ more = args.map (·.map Token.inLine)) := by
  -- the arguments after the first are written whole: a comma that separates begins at depth 0 again
  induction ts generalizing depth first more with
  | nil => cases h
  | cons t ts ih =>
    unfold splitArguments at h
    split at h
    next closes =>
      cases h
      exact ⟨[], _, rfl, closes.1, rfl, .inl ⟨t, closes.2, rfl, rfl⟩⟩
    next noClosing =>
      split at h
      next separates =>
        obtain ⟨⟨f, m, r⟩, hr, h⟩ := Option.map_eq_some_iff.1 h
        cases h
        obtain ⟨a, tail, rfl, argument, rfl, hmore⟩ := ih hr
        refine ⟨[], _, rfl, separates.1, rfl, .inr ?_⟩
        rcases hmore with ⟨closing, closes, rfl, rfl⟩ | ⟨comma, args, written, hcomma, rfl, hw, rfl⟩
        · exact ⟨t, [a], _, separates.2, by simp, .last argument closes, rfl⟩
        · exact ⟨t, a :: args, _, separates.2, by simp, .more argument hcomma hw, rfl⟩
      next noComma =>
        obtain ⟨⟨f, m, r⟩, hr, h⟩ := Option.map_eq_some_iff.1 h
        cases h
        obtain ⟨a, tail, rfl, argument, rfl, hmore⟩ := ih hr
        refine ⟨t :: a, tail, rfl, ⟨fun h0 => ⟨?_, ?_⟩, argument⟩, rfl, hmore⟩
        · exact eq_false_of_ne_true fun ht => noClosing ⟨h0, ht⟩
        · exact eq_false_of_ne_true fun ht => noComma ⟨h0, ht⟩

/-- **The arguments that are read are those that are written**, with blanks for line ends and without
trivia at either end. -/
theorem arguments_eq_some_iff : arguments ts = some (args, rest) ↔
    ∃ given written, Written given written ∧ ts = written ++ rest ∧
      args = given.map fun a => trimTrivia (a.map Token.inLine) := by
  constructor
  · intro h
    obtain ⟨⟨first, more, r⟩, hr, h⟩ := Option.map_eq_some_iff.1 h
    cases h
    obtain ⟨a, tail, rfl, argument, rfl, hmore⟩ := exists_written hr
    rcases hmore with ⟨closing, closes, rfl, rfl⟩ | ⟨comma, given, written, hcomma, rfl, hw, rfl⟩
    · exact ⟨[a], _, .last argument closes, by simp, rfl⟩
    · exact ⟨a :: given, _, .more argument hcomma hw, by simp, by simp⟩
  · rintro ⟨given, written, hw, rfl, rfl⟩
    obtain ⟨first, more, hargs, hread⟩ := splitArguments_written hw rest
    rw [arguments, hread, Option.map_some]
    simp only [← hargs, List.map_map]
    rfl

/-- Whether some arguments are listed in tokens: after trivia an opening parenthesis, and then they
are written. -/
inductive ArgumentList (args : List (List Token)) : List Token → Prop
  | intro {gap written : List Token} {opening : Token} (trivia : ∀ t ∈ gap, t.isTrivia = true)
      (opens : opening.isPunct '(' = true) (inside : Written args written) :
      ArgumentList args (gap ++ opening :: written)

theorem isTrivia_of_isPunct {x : Char} (h : t.isPunct x = true) : t.isTrivia = false := by
  obtain ⟨hkind, -⟩ := Bool.and_eq_true_iff.1 h
  rw [Lexeme.isTrivia, eq_of_beq hkind]
  rfl

/-- Trivia and an opening parenthesis are passed over. -/
theorem afterOpening_append {gap : List Token} (trivia : ∀ t ∈ gap, t.isTrivia = true)
    (opens : c.isPunct '(' = true) : afterOpening (gap ++ c :: ts) = some ts := by
  induction gap with
  | nil =>
    have noTrivia : ¬c.isTrivia = true := ne_true_of_eq_false (isTrivia_of_isPunct opens)
    rw [List.nil_append, afterOpening, if_neg noTrivia, if_pos opens]
  | cons t gap ih =>
    obtain ⟨ht, hgap⟩ := List.forall_mem_cons.1 trivia
    rw [List.cons_append, afterOpening, if_pos ht, ih hgap]

theorem ArgumentList.reads {list : List Token} (h : ArgumentList args list) (rest : List Token) :
    ∃ inside, afterOpening (list ++ rest) = some inside ∧
      arguments inside = some (args.map fun a => trimTrivia (a.map Token.inLine), rest) := by
  obtain ⟨trivia, opens, hw⟩ := h
  refine ⟨_, ?_, arguments_eq_some_iff.2 ⟨args, _, hw, rfl, rfl⟩⟩
  rw [List.append_assoc]
  exact afterOpening_append trivia opens

/-! ## Arguments that are taken as they stand -/

/-- Whether nothing of an argument is changed or left out before it is expanded: it has no line end,
and no trivia at either end. -/
structure IsBare (a : List Token) : Prop where
  oneLine : ∀ t ∈ a, t.kind ≠ .newline
  head : ∀ t ∈ a.head?, t.isTrivia = false
  last : ∀ t ∈ a.getLast?, t.isTrivia = false

theorem dropWhile_eq_self (h : ∀ t ∈ ts.head?, t.isTrivia = false) :
    ts.dropWhile (·.isTrivia) = ts := by
  cases ts with
  | nil => rfl
  | cons t ts => exact List.dropWhile_cons_of_neg (ne_true_of_eq_false (h t rfl))

theorem IsBare.trim (h : IsBare a) : trimTrivia (a.map Token.inLine) = a := by
  have inLine : a.map Token.inLine = a :=
    (List.map_congr_left fun t ht => if_neg (h.oneLine t ht)).trans (List.map_id a)
  rw [inLine, trimTrivia, dropWhile_eq_self h.head, dropWhile_eq_self, List.reverse_reverse]
  rw [List.head?_reverse]
  exact h.last

/-! ## Substitution, all at once -/

/-- The lexemes of the body, with a value in the place of each parameter. -/
def Definition.fill (d : Definition) (values : List (List Lexeme)) : List Lexeme :=
  d.body.flatMap fun l =>
    if l.kind = .identifier then (((d.params.getD []).zip values).lookup l.text).getD [l] else [l]

/-- **A replacement is made of the lexemes of the body filled with the arguments.** -/
theorem lexemes_substitute (d : Definition) (t : Token) (args : List (List Token)) :
    (d.substitute t args).map (·.toLexeme) = d.fill (args.map (·.map (·.toLexeme))) := by
  rw [substitute_eq, List.map_flatMap, Definition.fill]
  refine congrArg d.body.flatMap (funext fun l => ?_)
  rw [Definition.argumentFor]
  split
  next =>
    have hlookup : ((d.params.getD []).zip (args.map (·.map (·.toLexeme)))).lookup l.text =
        ((d.paramIndex l.text).bind (args[·]?)).map (·.map (·.toLexeme)) := by
      rw [lookup_zip, Definition.paramIndex]
      cases d.params with
      | none => rfl
      | some params =>
        rw [Option.getD_some, Option.bind_some]
        cases params.idxOf? l.text with
        | none => rfl
        | some i => exact List.getElem?_map ..
    rw [hlookup]
    cases (d.paramIndex l.text).bind (args[·]?) with
    | none => rfl
    | some a => simp [Definition.argumentToken]
  next => rfl

theorem argumentFor_eq_none {l : Lexeme} {params : List String} (hparams : d.params = some params)
    (length : args.length = params.length) (h : d.argumentFor l args = none)
    (kind : l.kind = .identifier) : l.text ∉ params := by
  intro hmem
  obtain ⟨i, hi⟩ := Option.isSome_iff_exists.1 (List.isSome_idxOf?.2 hmem)
  rw [Definition.argumentFor, if_pos kind, Definition.paramIndex, hparams, Option.bind_some, hi,
    Option.bind_some, List.getElem?_eq_none_iff, length] at h
  exact absurd (List.findIdx?_eq_some_iff_findIdx_eq.1 hi).1 (Nat.not_lt.2 h)

/-! ## Invocations -/

/-- Whether no token of an expanded argument and no lexeme of a body but its parameters names a macro
other than the one invoked, unless it is hidden from that macro. -/
structure Settled (table : Table) (t : Token) (d : Definition) (params : List String)
    (expanded : List (List Token)) : Prop where
  arguments : ∀ r ∈ expanded, ∀ v ∈ r, v.kind = .identifier → table.isDefined v.text = true →
    v.text = t.text ∨ v.text ∈ v.hide ∨ v.text ∈ t.hide
  body : ∀ l ∈ d.body, l.kind = .identifier → l.text ∉ params → table.isDefined l.text = true →
    l.text = t.text ∨ l.text ∈ t.hide

/-- No macro replaces anything in a replacement that is settled. -/
theorem Settled.applicable {params : List String} (h : Settled table t d params expanded)
    (names : table.get? t.text = some d) (hparams : d.params = some params)
    (length : expanded.length = params.length) (hu : u ∈ d.substitute t expanded) :
    table.applicable u = none := by
  have name : d.name = t.text := Table.name_of_get? names
  refine applicable_eq_none fun kind defined => ?_
  rcases mem_substitute hu with ⟨r, hr, v, hv, rfl⟩ | ⟨l, hl, hfor, rfl⟩
  · refine mem_unite.2 ?_
    rcases h.arguments r hr v hv kind defined with itself | hown | hin
    · exact .inr (List.mem_append_right _ (List.mem_singleton.2 (itself.trans name.symm)))
    · exact .inl hown
    · exact .inr (List.mem_append_left _ hin)
  · refine List.mem_append.2 ?_
    rcases h.body l hl kind (argumentFor_eq_none hparams length hfor kind) defined with itself | hin
    · exact .inr (List.mem_singleton.2 (itself.trans name.symm))
    · exact .inl hin

/-- A macro with parameters is given all arguments that are listed. -/
theorem given_of_params {params : List String} (hparams : d.params = some params)
    (nonempty : params ≠ []) (args : List (List Token)) : d.given args = args :=
  if_neg fun h => nonempty (Option.some.inj (hparams.symm.trans h.1))

theorem arity_of_params {params : List String} (hparams : d.params = some params) :
    d.arity = params.length := by rw [Definition.arity, hparams, Option.getD_some]

/-- An invocation with another number of arguments than parameters fails. -/
theorem expand_of_length_ne {params : List String} {list : List Token}
    (names : table.applicable t = some d) (hparams : d.params = some params)
    (nonempty : params ≠ []) (h : ArgumentList args list) (length : args.length ≠ params.length)
    (rest : List Token) : expand table (t :: (list ++ rest)) =
      .error (.arity d.name params.length args.length, t.origin) := by
  obtain ⟨inside, opening, closing⟩ := h.reads rest
  rw [expand_call names (hparams ▸ Option.some_ne_none params), opening]
  simp only [closing, given_of_params hparams nonempty, arity_of_params hparams, List.length_map,
    if_pos length]

/-- An invocation whose arguments expand is replaced. -/
theorem expand_of_length_eq {params : List String} {list : List Token}
    (names : table.applicable t = some d) (hparams : d.params = some params)
    (nonempty : params ≠ []) (h : ArgumentList args list) (length : args.length = params.length)
    (each : (args.map fun a => trimTrivia (a.map Token.inLine)).mapM (expand table) = .ok expanded)
    (rest : List Token) : expand table (t :: (list ++ rest)) =
      expand table (d.substitute t expanded ++ rest) := by
  obtain ⟨inside, opening, closing⟩ := h.reads rest
  rw [expand_call names (hparams ▸ Option.some_ne_none params), opening]
  simp only [closing, given_of_params hparams nonempty, arity_of_params hparams, List.length_map,
    length, ne_eq, not_true_eq_false, if_false, each]

/-- **An invocation becomes the body with its arguments expanded.**  Where a macro with parameters is
invoked with as many arguments, taken as they stand, which expand to `expanded`, and nothing in the
body so filled names another macro, that is what comes out, all of it from where the invocation
stands, and then what the rest expands to.  With any other number of arguments the invocation is a
failure that names the macro and stands at the invocation, also when it waits in a frame behind
tokens that no macro replaces. -/
theorem expand_invocation {params : List String} (kind : t.kind = .identifier)
    (shown : t.text ∉ t.hide) (names : table.get? t.text = some d)
    (hparams : d.params = some params) (nonempty : params ≠ []) :
    (∀ args expanded list rest, ArgumentList args list → args.length = params.length →
      (∀ a ∈ args, IsBare a) → List.Forall₂ (fun a r => expand table a = .ok r) args expanded →
      Settled table t d params expanded →
      expand table (t :: (list ++ rest)) =
          (expand table rest).map (d.substitute t expanded ++ ·) ∧
        (d.substitute t expanded).map (·.toLexeme) = d.fill (expanded.map (·.map (·.toLexeme))) ∧
        ∀ u ∈ d.substitute t expanded, u.origin = t.origin ∧ u.verbatim = false) ∧
    ∀ args list rest, ArgumentList args list → args.length ≠ params.length →
      expand table (t :: (list ++ rest)) =
          .error (.arity t.text params.length args.length, t.origin) ∧
        ∀ (f : Frame) (s : State) (passed : List Token), s.macros = table →
          (∀ u ∈ passed, table.applicable u = none) →
          f.waiting.reverse = passed ++ t :: (list ++ rest) →
          ∃ e, flush f s = .error e ∧ e.diagnostic = .source .directive ("macro '" ++ t.text ++
            "' expects " ++ toString params.length ++ " argument(s), got " ++ toString args.length)
            (s.position t.origin) := by
  have applies : table.applicable t = some d := applicable_eq_some_iff.2 ⟨kind, shown, names⟩
  refine ⟨fun args expanded list rest hlist length bare each settled => ?_,
    fun args list rest hlist length => ?_⟩
  · have asTheyStand : (args.map fun a => trimTrivia (a.map Token.inLine)) = args :=
      (List.map_congr_left fun a ha => (bare a ha).trim).trans (List.map_id args)
    have length' : expanded.length = params.length := each.length_eq.symm.trans length
    refine ⟨?_, lexemes_substitute d t expanded, fun u hu => place_substitute hu⟩
    rw [expand_of_length_eq applies hparams nonempty hlist length
      ((congrArg (·.mapM (expand table)) asTheyStand).trans (mapM_eq_ok_iff.2 each))]
    exact expand_append_of_none (fun u hu => settled.applicable names hparams length' hu) rest
  · have fails : expand table (t :: (list ++ rest)) =
        .error (.arity t.text params.length args.length, t.origin) := by
      rw [expand_of_length_ne applies hparams nonempty hlist length, Table.name_of_get? names]
    refine ⟨fails, fun f s passed hs still waiting => ?_⟩
    refine ⟨⟨.invocation (.arity t.text params.length args.length), s.position t.origin⟩, ?_, rfl⟩
    rw [flush, hs, waiting, expand_append_of_none still, fails]
    rfl

/-- Parameters that change places, one of them as the argument for the other, and a list of one
argument where two are expected. -/
theorem expand_invocation_apply :
    let name (text : String) : Token := ⟨⟨.identifier, text⟩, ⟨0, 0⟩, true, []⟩
    let punct (text : String) : Token := ⟨⟨.punct, text⟩, ⟨0, 0⟩, true, []⟩
    let d : Definition :=
      ⟨"F", some ["x", "y"], [⟨.identifier, "y"⟩, ⟨.punct, "+"⟩, ⟨.identifier, "x"⟩]⟩
    let table := Table.empty.define d
    let nested := [punct "(", name "x", punct ",", name "F", punct ")"]
    expand table (name "F" :: punct "(" :: name "y" :: punct "," :: (nested ++ [punct ")"])) =
        .ok (d.substitute (name "F") [[name "y"], nested]) ∧
      (d.substitute (name "F") [[name "y"], nested]).map (·.text) =
        ["(", "x", ",", "F", ")", "+", "y"] ∧
      expand table [name "F", punct "(", name "y", punct ")"] =
        .error (.arity "F" 2 1, ⟨0, 0⟩) := by
  intro name punct d table nested
  have names : table.get? "F" = some d := by decide
  obtain ⟨fills, fails⟩ := expand_invocation (t := name "F") rfl (by decide) names rfl (by decide)
  have plain : IsArgument 0 [name "y"] := ⟨by decide, rfl⟩
  have closes : (punct ")").isPunct ')' = true := by decide
  have opens : (punct "(").isPunct '(' = true := by decide
  have one : ArgumentList [[name "y"]] _ :=
    @ArgumentList.intro _ [] _ _ (by decide) opens (.last plain closes)
  have two : ArgumentList [[name "y"], nested] _ :=
    @ArgumentList.intro _ [] _ _ (by decide) opens
      (.more plain (show (punct ",").isPunct ',' = true by decide)
        (.last ⟨by decide, by decide, by decide, by decide, by decide, rfl⟩ closes))
  have bare : ∀ a ∈ [[name "y"], nested], IsBare a :=
    List.forall_mem_cons.2 ⟨⟨by decide, by decide, by decide⟩,
      List.forall_mem_singleton.2 ⟨by decide, by decide, by decide⟩⟩
  have each : List.Forall₂ (fun a r => expand table a = .ok r) [[name "y"], nested]
      [[name "y"], nested] := .cons (by cbv) (.cons (by cbv) .nil)
  have settled : Settled table (name "F") d ["x", "y"] [[name "y"], nested] :=
    ⟨by decide, by decide⟩
  refine ⟨?_, by decide, (fails _ _ [] one (by decide)).1⟩
  refine (fills _ _ _ [] two rfl bare each settled).1.trans ?_
  rw [expand]
  exact congrArg Except.ok (List.append_nil _)

end Macro

end ShaderPass
