import ShaderPass.Proofs.Macro.Origins

/-!
# Proofs/Macro/Equations — what expansion makes of a queue, by the token in front

    t ⋯   t stays         t, and then what the rest becomes
    t ⋯   t is replaced   what  new ++ rest  becomes

The cases of `Expands` are equations of `expand`, and so whatever is derived by them is what `expand`
gives (`expand_of_expands`).  Tokens that no macro replaces are passed over, however many there are
(`expand_append_of_none`).
-/

namespace ShaderPass.Macro

variable {table : Table} {t u v : Token} {ts new queue out rest : List Token} {d : Definition}
  {l : Lexeme} {args : List (List Token)}

/-! ## The token in front -/

/-- A macro replaces a token that names it and does not hide it. -/
theorem applicable_eq_some_iff : table.applicable t = some d ↔
    t.kind = .identifier ∧ t.text ∉ t.hide ∧ table.get? t.text = some d := by
  have hidden : t.isHidden = false ↔ t.text ∉ t.hide := by
    rw [Token.isHidden, ← Bool.not_eq_true, List.contains_iff_mem]
  rw [Table.applicable]
  split
  next h => exact ⟨fun hd => ⟨h.1, hidden.1 h.2, hd⟩, fun hd => hd.2.2⟩
  next h => exact ⟨fun hd => absurd hd.symm (Option.some_ne_none d),
      fun hd => absurd ⟨hd.1, hidden.2 hd.2.1⟩ h⟩

/-- No macro replaces a token that hides its own name, where it names a macro. -/
theorem applicable_eq_none (h : t.kind = .identifier → table.isDefined t.text = true →
    t.text ∈ t.hide) : table.applicable t = none := by
  refine Option.eq_none_iff_forall_ne_some.2 fun d hd => ?_
  obtain ⟨kind, shown, names⟩ := applicable_eq_some_iff.1 hd
  refine shown (h kind ?_)
  rw [Table.isDefined, names]
  rfl

theorem keeps_of_none (h : table.applicable t = none) : table.Keeps t ts :=
  fun d hd => by cases h.symm.trans hd

theorem expand_of_keeps (h : table.Keeps t ts) :
    expand table (t :: ts) = (expand table ts).map (t :: ·) := by
  cases hd : table.applicable t with
  | none => rw [expand, hd]
  | some d =>
    obtain ⟨params, opening⟩ := h d hd
    rw [expand_call hd params, opening]

theorem expand_object (names : table.applicable t = some d) (params : d.params = none) :
    expand table (t :: ts) = expand table (d.substitute t [] ++ ts) := by
  rw [expand, names]
  exact if_pos params

/-- **Tokens that no macro replaces are passed over.** -/
theorem expand_append_of_none (h : ∀ u ∈ new, table.applicable u = none) (rest : List Token) :
    expand table (new ++ rest) = (expand table rest).map (new ++ ·) := by
  induction new with
  | nil =>
    rw [List.nil_append]
    cases expand table rest <;> rfl
  | cons u new ih =>
    obtain ⟨hu, hnew⟩ := List.forall_mem_cons.1 h
    rw [List.cons_append, expand_of_keeps (keeps_of_none hu), ih hnew]
    cases expand table rest <;> rfl

/-- **What `Expands` derives is what `expand` gives.** -/
theorem expand_of_expands (h : Expands table queue out) : expand table queue = .ok out := by
  induction h with
  | nil => rw [expand]
  | keep keeps _ ih =>
    rw [expand_of_keeps keeps, ih]
    rfl
  | object names params _ ih => rw [expand_object names params, ih]
  | @call t ts inside tail out d args expanded names opening closing arity length _ _ each ih =>
    have all : (d.given args).mapM (expand table) = .ok expanded :=
      mapM_eq_ok_iff.2 (List.forall₂_iff_get.2 ⟨length.symm, fun i hi hi' =>
        each i _ _ (List.getElem?_eq_getElem hi) (List.getElem?_eq_getElem hi')⟩)
    rw [expand_call names (params_of_arity closing arity), opening]
    simp only [closing, arity, ne_eq, not_true_eq_false, if_false, all, ih]

/-! ## The tokens of a replacement -/

/-- A lexeme of the body in the place of an invocation. -/
def Definition.bodyToken (d : Definition) (t : Token) (l : Lexeme) : Token :=
  ⟨l, t.origin, false, t.hide ++ [d.name]⟩

/-- A token of an argument in the place of an invocation. -/
def Definition.argumentToken (d : Definition) (t v : Token) : Token :=
  { v with origin := t.origin, verbatim := false, hide := unite v.hide (t.hide ++ [d.name]) }

/-- A replacement is the body, with the tokens of arguments where the arguments stand. -/
theorem substitute_eq : d.substitute t args = d.body.flatMap fun l =>
    ((d.argumentFor l args).map (·.map (d.argumentToken t))).getD [d.bodyToken t l] := by
  unfold Definition.substitute
  refine congrArg d.body.flatMap (funext fun l => ?_)
  cases d.argumentFor l args <;> rfl

/-- A token of a replacement is one of an argument, or a lexeme of the body that stands for none. -/
theorem mem_substitute (h : u ∈ d.substitute t args) :
    (∃ a ∈ args, ∃ v ∈ a, u = d.argumentToken t v) ∨
      ∃ l ∈ d.body, d.argumentFor l args = none ∧ u = d.bodyToken t l := by
  rw [substitute_eq] at h
  obtain ⟨l, hl, hu⟩ := List.mem_flatMap.1 h
  cases hfor : d.argumentFor l args with
  | none =>
    rw [hfor] at hu
    exact .inr ⟨l, hl, hfor, List.mem_singleton.1 hu⟩
  | some a =>
    rw [hfor] at hu
    obtain ⟨v, hv, rfl⟩ := List.mem_map.1 hu
    exact .inl ⟨a, mem_of_argumentFor hfor, v, hv, rfl⟩

theorem mem_unite {names more : List String} {name : String} :
    name ∈ unite names more ↔ name ∈ names ∨ name ∈ more := by
  by_cases h : name ∈ names <;> simp [unite, h]

end ShaderPass.Macro
