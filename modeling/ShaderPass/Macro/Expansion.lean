import ShaderPass.Macro.Definition
import ShaderPass.Macro.Descent

/-!
# Macro/Expansion — the replacement of macros in a list of tokens

A **token** is a lexeme that knows where it came from and which macros it came out of: the names in
its **hide set**.  A name in its own hide set is never replaced, which is all that stops macros that
mention themselves or each other.  A replacement is read again together with the tokens after it,
and an argument is expanded on its own before it is put into the body.

`expand` needs no bound on its depth: the tokens that replace an invocation all hide one name more
than it did (`rank_substitute`), so the numbers of names they do not hide step down in the sense of
`Macro/Descent`.
-/

namespace ShaderPass.Macro

/-- A place in a source unit: the index of the unit and a byte offset. -/
structure Origin where
  unit : Nat
  offset : Nat
  deriving DecidableEq, Repr, Inhabited

/-- A lexeme on its way through macro replacement. -/
structure Token extends Lexeme where
  origin : Origin
  /-- Whether the token stands in the source as it is, at its origin. -/
  verbatim : Bool
  /-- The names of the macros it came out of. -/
  hide : List String
  deriving DecidableEq, Repr, Inhabited

namespace Token

/-- Whether the token is hidden from the macro of its own name. -/
def isHidden (t : Token) : Bool := t.hide.contains t.text

/-- The token as it stands in an argument list, where a line end is a space. -/
def inLine (t : Token) : Token :=
  if t.kind = .newline then { t with kind := .whitespace, text := " " } else t

@[simp] theorem hide_inLine (t : Token) : t.inLine.hide = t.hide := by
  unfold inLine; split <;> rfl

end Token

/-- What can be wrong with an invocation. -/
inductive Fault
  | unterminatedArguments (name : String)
  | arity (name : String) (expected got : Nat)
  deriving DecidableEq, Repr

/-- The wording of a fault. -/
def Fault.message : Fault → String
  | .unterminatedArguments name =>
    "unterminated argument list invoking macro '" ++ name ++ "'"
  | .arity name expected got =>
    "macro '" ++ name ++ "' expects " ++ toString expected ++ " argument(s), got " ++ toString got

/-! ## Argument lists -/

/-- Tokens without the trivia at either end. -/
def trimTrivia (ts : List Token) : List Token :=
  ((ts.dropWhile (·.isTrivia)).reverse.dropWhile (·.isTrivia)).reverse

/-- What follows the parenthesis that opens an argument list; trivia may stand before it. -/
def afterOpening : List Token → Option (List Token)
  | [] => none
  | t :: ts =>
    if t.isTrivia then afterOpening ts else if t.isPunct '(' then some ts else none

/-- The depth of parentheses after a token. -/
def nesting (depth : Nat) (t : Token) : Nat :=
  if t.isPunct '(' then depth + 1 else if t.isPunct ')' then depth - 1 else depth

/-- The rest of the current argument, the arguments after it, and the tokens after the closing
parenthesis, read `depth` parentheses inside the argument list. -/
def splitArguments (depth : Nat) : List Token → Option (List Token × List (List Token) × List Token)
  | [] => none
  | t :: ts =>
    if depth = 0 ∧ t.isPunct ')' then some ([], [], ts)
    else if depth = 0 ∧ t.isPunct ',' then
      (splitArguments 0 ts).map fun (first, more, rest) => ([], first :: more, rest)
    else
      (splitArguments (nesting depth t) ts).map fun (first, more, rest) =>
        (t.inLine :: first, more, rest)

/-- The arguments after an opening parenthesis, and the tokens after the closing one. -/
def arguments (ts : List Token) : Option (List (List Token) × List Token) :=
  (splitArguments 0 ts).map fun (first, more, rest) => ((first :: more).map trimTrivia, rest)

/-- The arguments that count: a macro without parameters is given none by `()`. -/
def Definition.given (d : Definition) (args : List (List Token)) : List (List Token) :=
  if d.params = some [] ∧ args = [[]] then [] else args

/-- The number of parameters. -/
def Definition.arity (d : Definition) : Nat := (d.params.getD []).length

/-! ## Substitution -/

/-- The names of the first list, and after them those of the second that are new. -/
def unite (names more : List String) : List String := names ++ more.filter (· ∉ names)

/-- The argument that a lexeme of the body stands for. -/
def Definition.argumentFor (d : Definition) (l : Lexeme) (args : List (List Token)) :
    Option (List Token) :=
  if l.kind = .identifier then (d.paramIndex l.text).bind (args[·]?) else none

/-- The tokens that replace an invocation: the body with the expanded arguments in the place of the
parameters.  All of them come from where the invocation does and hide what it hides and its name. -/
def Definition.substitute (d : Definition) (invocation : Token) (args : List (List Token)) :
    List Token :=
  let hide := invocation.hide ++ [d.name]
  d.body.flatMap fun l =>
    match d.argumentFor l args with
    | some tokens => tokens.map fun t =>
      { t with origin := invocation.origin, verbatim := false, hide := unite t.hide hide }
    | none => [{ l with origin := invocation.origin, verbatim := false, hide := hide }]

/-! ## Termination -/

/-- The number of macros that a hide set does not hide. -/
def Table.rank (table : Table) (hide : List String) : Nat :=
  (table.entries.filter (·.name ∉ hide)).length

/-- The ranks of the hide sets of some tokens. -/
def Table.ranks (table : Table) (ts : List Token) : List Nat := ts.map (table.rank ·.hide)

/-- The macro that replaces a token, unless an argument list is missing. -/
def Table.applicable (table : Table) (t : Token) : Option Definition :=
  if t.kind = .identifier ∧ t.isHidden = false then table.get? t.text else none

/-- A hide set that hides one more macro of the table has a lower rank. -/
theorem rank_lt {table : Table} {d : Definition} (hd : d ∈ table.entries) {hide more : List String}
    (hnot : d.name ∉ hide) (hmore : d.name ∈ more) (hsub : ∀ h ∈ hide, h ∈ more) :
    table.rank more < table.rank hide := by
  unfold Table.rank
  generalize table.entries = entries at hd
  induction entries with
  | nil => simp at hd
  | cons e es ih =>
    have hle : (es.filter (·.name ∉ more)).length ≤ (es.filter (·.name ∉ hide)).length := by
      clear ih hd
      induction es with
      | nil => simp
      | cons f fs ih =>
        rw [List.filter_cons, List.filter_cons]
        by_cases h : f.name ∈ hide
        · simpa [h, hsub _ h] using ih
        · by_cases h' : f.name ∈ more
          · simp only [h', h, not_true_eq_false, decide_false, not_false_eq_true, decide_true,
              if_true, List.length_cons]
            exact Nat.le_succ_of_le (by simpa using ih)
          · simpa [h, h'] using ih
    rw [List.filter_cons, List.filter_cons]
    rcases List.mem_cons.1 hd with rfl | hd
    · simp only [hmore, hnot, not_true_eq_false, decide_false, not_false_eq_true, decide_true,
        if_true, List.length_cons]
      exact Nat.lt_succ_of_le (by simpa using hle)
    · have ih := ih hd
      by_cases h : e.name ∈ hide
      · simpa [h, hsub _ h] using ih
      · by_cases h' : e.name ∈ more
        · simp only [h', h, not_true_eq_false, decide_false, not_false_eq_true, decide_true,
            if_true, List.length_cons]
          exact Nat.lt_succ_of_lt (by simpa using ih)
        · simpa [h, h'] using ih

/-- Every token of a replacement hides what the invocation hides, and its name. -/
theorem subset_hide_substitute {d : Definition} {t : Token} {args : List (List Token)} {u : Token}
    (hu : u ∈ d.substitute t args) : ∀ h ∈ t.hide ++ [d.name], h ∈ u.hide := by
  obtain ⟨l, _, hu⟩ := List.mem_flatMap.1 hu
  intro h hh
  split at hu
  next tokens _ =>
    obtain ⟨a, _, rfl⟩ := List.mem_map.1 hu
    by_cases ha : h ∈ a.hide
    · exact List.mem_append_left _ ha
    · exact List.mem_append_right _ (by simpa [ha] using hh)
  next =>
    obtain rfl := List.mem_singleton.1 hu
    exact hh

theorem name_notMem_hide {table : Table} {t : Token} {d : Definition}
    (h : table.applicable t = some d) : d ∈ table.entries ∧ d.name ∉ t.hide := by
  unfold Table.applicable at h
  split at h
  next ht =>
    refine ⟨Table.mem_of_get? h, ?_⟩
    rw [Table.name_of_get? h]
    simpa [Token.isHidden] using ht.2
  next => simp at h

/-- Every token of a replacement has a lower rank than the invocation. -/
theorem rank_substitute {table : Table} {t : Token} {d : Definition}
    (h : table.applicable t = some d) {args : List (List Token)} {u : Token}
    (hu : u ∈ d.substitute t args) : table.rank u.hide < table.rank t.hide := by
  obtain ⟨hd, hname⟩ := name_notMem_hide h
  have hsub := subset_hide_substitute hu
  exact rank_lt hd hname (hsub _ (by simp)) fun x hx => hsub x (by simp [hx])

theorem sublist_afterOpening : ∀ {ts rest : List Token}, afterOpening ts = some rest →
    rest.Sublist ts
  | [], _, h => by simp [afterOpening] at h
  | t :: ts, rest, h => by
    unfold afterOpening at h
    split at h
    next => exact (sublist_afterOpening h).cons t
    next =>
      split at h
      next => exact Option.some.inj h ▸ List.sublist_cons_self t ts
      next => simp at h

/-- The arguments and what follows them come from the tokens read, as far as hide sets go. -/
theorem sublist_splitArguments {depth : Nat} {ts first rest : List Token}
    {more : List (List Token)} (h : splitArguments depth ts = some (first, more, rest)) :
    (∀ a ∈ first :: more, (a.map Token.hide).Sublist (ts.map Token.hide)) ∧ rest.Sublist ts := by
  induction ts generalizing depth first more rest with
  | nil => simp [splitArguments] at h
  | cons t ts ih =>
    unfold splitArguments at h
    split at h
    next =>
      simp only [Option.some.injEq, Prod.mk.injEq] at h
      obtain ⟨rfl, rfl, rfl⟩ := h
      exact ⟨by simp, List.sublist_cons_self t ts⟩
    next =>
      split at h
      next =>
        obtain ⟨⟨f, m, r⟩, hr, h⟩ := Option.map_eq_some_iff.1 h
        simp only [Prod.mk.injEq] at h
        obtain ⟨rfl, rfl, rfl⟩ := h
        obtain ⟨ha, hs⟩ := ih hr
        refine ⟨fun a h => ?_, hs.cons t⟩
        rcases List.mem_cons.1 h with rfl | h
        · simp
        · exact (ha a h).cons _
      next =>
        obtain ⟨⟨f, m, r⟩, hr, h⟩ := Option.map_eq_some_iff.1 h
        simp only [Prod.mk.injEq] at h
        obtain ⟨rfl, rfl, rfl⟩ := h
        obtain ⟨ha, hs⟩ := ih hr
        refine ⟨fun a h => ?_, hs.cons t⟩
        rcases List.mem_cons.1 h with rfl | h
        · simpa using (ha f (by simp)).cons_cons t.hide
        · exact (ha a (by simp [h])).cons _

theorem sublist_trimTrivia (ts : List Token) : (trimTrivia ts).Sublist ts := by
  have h := (List.dropWhile_sublist (·.isTrivia) (l := (ts.dropWhile (·.isTrivia)).reverse)).reverse
  rw [List.reverse_reverse] at h
  exact h.trans (List.dropWhile_sublist _)

theorem sublist_arguments {ts rest : List Token} {args : List (List Token)}
    (h : arguments ts = some (args, rest)) :
    (∀ a ∈ args, (a.map Token.hide).Sublist (ts.map Token.hide)) ∧ rest.Sublist ts := by
  obtain ⟨⟨f, m, r⟩, hr, h⟩ := Option.map_eq_some_iff.1 h
  simp only [Prod.mk.injEq] at h
  obtain ⟨rfl, rfl⟩ := h
  obtain ⟨ha, hs⟩ := sublist_splitArguments hr
  refine ⟨fun a h => ?_, hs⟩
  obtain ⟨b, hb, rfl⟩ := List.mem_map.1 h
  exact ((sublist_trimTrivia b).map _).trans (ha b hb)

theorem mem_given {d : Definition} {args : List (List Token)} {a : List Token}
    (h : a ∈ d.given args) : a ∈ args := by
  unfold Definition.given at h
  split at h
  next => simp at h
  next => exact h

/-- Putting a replacement in the place of an invocation is a step down. -/
theorem below_replace {table : Table} {t : Token} {d : Definition} {ts rest : List Token}
    (h : table.applicable t = some d) (args : List (List Token)) (hrest : rest.Sublist ts) :
    Below (table.ranks (d.substitute t args ++ rest)) (table.ranks (t :: ts)) := by
  unfold Table.ranks
  rw [List.map_append, List.map_cons]
  refine .step (fun m hm => ?_) (hrest.map _)
  obtain ⟨u, hu, rfl⟩ := List.mem_map.1 hm
  exact rank_substitute h hu

/-- An argument is a step down from the invocation it belongs to. -/
theorem below_argument {table : Table} {t : Token} {a ts : List Token}
    (h : (a.map Token.hide).Sublist (ts.map Token.hide)) :
    Below (table.ranks a) (table.ranks (t :: ts)) := by
  have h := h.map table.rank
  rw [List.map_map, List.map_map] at h
  exact Below.drop _ h

/-! ## Expansion -/

/-- The tokens that are left when every macro has been replaced.  A fault comes with the origin of
the invocation. -/
def expand (table : Table) (queue : List Token) : Except (Fault × Origin) (List Token) :=
  match queue with
  | [] => .ok []
  | t :: ts =>
    match _hd : table.applicable t with
    | none => (expand table ts).map (t :: ·)
    | some d =>
      if d.params = none then expand table (d.substitute t [] ++ ts)
      else
        match _ho : afterOpening ts with
        | none => (expand table ts).map (t :: ·)
        | some inside =>
          match _ha : arguments inside with
          | none => .error (.unterminatedArguments t.text, t.origin)
          | some (args, rest) =>
            if (d.given args).length ≠ d.arity then
              .error (.arity d.name d.arity (d.given args).length, t.origin)
            else
              match (d.given args).attach.mapM fun a => expand table a.1 with
              | .error fault => .error fault
              | .ok expanded => expand table (d.substitute t expanded ++ rest)
termination_by Ranks.mk (table.ranks queue)
decreasing_by
  · exact Below.tail _ _
  · exact below_replace _hd [] (List.Sublist.refl ts)
  · exact Below.tail _ _
  · exact below_argument (((sublist_arguments _ha).1 a.1 (mem_given a.2)).trans
      ((sublist_afterOpening _ho).map _))
  · exact below_replace _hd expanded ((sublist_arguments _ha).2.trans (sublist_afterOpening _ho))

end ShaderPass.Macro
