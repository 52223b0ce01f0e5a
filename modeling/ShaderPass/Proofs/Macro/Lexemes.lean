import ShaderPass.Proofs.Macro.Origins

/-!
# Proofs/Macro/Lexemes — what the lexemes of an expansion are

Expansion makes no lexemes of its own but a blank, for a line end in an argument list.  So what holds
of a blank, of the lexemes of the macros and of those to be expanded holds of those that come out
(`forall_expands`).
-/

namespace ShaderPass.Macro

variable {table : Table} {P : Lexeme → Prop}

/-- Whether something holds of all lexemes of all macros. -/
def Table.Forall (table : Table) (P : Lexeme → Prop) : Prop :=
  ∀ d ∈ table.entries, ∀ l ∈ d.body, P l

theorem Table.Forall.define (h : table.Forall P) {d : Definition} (hd : ∀ l ∈ d.body, P l) :
    (table.define d).Forall P := by
  intro e he
  rcases List.mem_cons.1 he with rfl | he
  · exact hd
  · exact h e (List.mem_filter.1 he).1

theorem Table.Forall.undefine (h : table.Forall P) (name : String) :
    (table.undefine name).Forall P := fun e he => h e (List.mem_filter.1 he).1

/-- A token of an argument list stands there as it is, but for a line end. -/
theorem forall_inLine (hblank : P ⟨.whitespace, " "⟩) (t : Token) (h : P t.toLexeme) :
    P t.inLine.toLexeme := by
  unfold Token.inLine
  split
  next => exact hblank
  next => exact h

theorem suffix_afterOpening : ∀ {ts inside : List Token}, afterOpening ts = some inside →
    inside <:+ ts
  | [], _, h => by simp [afterOpening] at h
  | t :: ts, inside, h => by
    unfold afterOpening at h
    split at h
    next => exact (suffix_afterOpening h).trans (List.suffix_cons t ts)
    next =>
      split at h
      next => exact Option.some.inj h ▸ List.suffix_cons t ts
      next => simp at h

theorem exists_taken_splitArguments {depth : Nat} {ts first rest : List Token}
    {more : List (List Token)} (h : splitArguments depth ts = some (first, more, rest)) :
    ∃ taken, ts = taken ++ rest ∧ ∀ a ∈ first :: more, ∀ t ∈ a, ∃ u ∈ taken, t = u.inLine := by
  induction ts generalizing depth first more rest with
  | nil => simp [splitArguments] at h
  | cons t ts ih =>
    unfold splitArguments at h
    split at h
    next =>
      cases h
      exact ⟨[t], rfl, by simp⟩
    next =>
      split at h
      next =>
        obtain ⟨⟨f, m, r⟩, hr, h⟩ := Option.map_eq_some_iff.1 h
        cases h
        obtain ⟨taken, rfl, args⟩ := ih hr
        refine ⟨t :: taken, rfl, List.forall_mem_cons.2 ⟨by simp, fun a ha u hu => ?_⟩⟩
        obtain ⟨v, hv, hline⟩ := args a ha u hu
        exact ⟨v, List.mem_cons_of_mem t hv, hline⟩
      next =>
        obtain ⟨⟨f, m, r⟩, hr, h⟩ := Option.map_eq_some_iff.1 h
        cases h
        obtain ⟨taken, rfl, args⟩ := ih hr
        have later : ∀ a ∈ f :: more, ∀ u ∈ a, ∃ v ∈ t :: taken, u = v.inLine := fun a ha u hu => by
          obtain ⟨v, hv, hline⟩ := args a ha u hu
          exact ⟨v, List.mem_cons_of_mem t hv, hline⟩
        obtain ⟨hf, hm⟩ := List.forall_mem_cons.1 later
        exact ⟨t :: taken, rfl, List.forall_mem_cons.2
          ⟨List.forall_mem_cons.2 ⟨⟨t, List.mem_cons_self, rfl⟩, hf⟩, hm⟩⟩

/-- **An argument list takes the tokens up to its closing parenthesis**, and the arguments are made
of these, with blanks for line ends. -/
theorem exists_taken {ts inside rest : List Token} {args : List (List Token)}
    (opening : afterOpening ts = some inside) (closing : arguments inside = some (args, rest)) :
    ∃ taken, ts = taken ++ rest ∧ ∀ a ∈ args, ∀ t ∈ a, ∃ u ∈ taken, t = u.inLine := by
  obtain ⟨⟨f, m, r⟩, hr, h⟩ := Option.map_eq_some_iff.1 closing
  cases h
  obtain ⟨before, rfl⟩ := suffix_afterOpening opening
  obtain ⟨taken, rfl, hargs⟩ := exists_taken_splitArguments hr
  refine ⟨before ++ taken, (List.append_assoc _ _ _).symm, fun a ha t ht => ?_⟩
  obtain ⟨b, hb, rfl⟩ := List.mem_map.1 ha
  obtain ⟨u, hu, hline⟩ := hargs b hb t ((sublist_trimTrivia b).subset ht)
  exact ⟨u, List.mem_append_right _ hu, hline⟩

/-- What is known of the tokens after an invocation, and stays so where a line end becomes a blank,
is known of its arguments and of the tokens after these. -/
theorem forall_arguments {Q : Token → Prop} (hline : ∀ t, Q t → Q t.inLine)
    {ts inside rest : List Token} {args : List (List Token)} (hts : ∀ t ∈ ts, Q t)
    (opening : afterOpening ts = some inside) (closing : arguments inside = some (args, rest)) :
    (∀ a ∈ args, ∀ t ∈ a, Q t) ∧ ∀ t ∈ rest, Q t := by
  obtain ⟨taken, rfl, hargs⟩ := exists_taken opening closing
  obtain ⟨htaken, hrest⟩ := List.forall_mem_append.1 hts
  refine ⟨fun a ha t ht => ?_, hrest⟩
  obtain ⟨u, hu, rfl⟩ := hargs a ha t ht
  exact hline u (htaken u hu)

/-- A replacement is made of lexemes of the body and of the arguments. -/
theorem forall_substitute {d : Definition} {t : Token} {args : List (List Token)}
    (hd : ∀ l ∈ d.body, P l) (hargs : ∀ a ∈ args, ∀ t ∈ a, P t.toLexeme) :
    ∀ u ∈ d.substitute t args, P u.toLexeme := by
  intro u hu
  obtain ⟨l, hl, hu⟩ := List.mem_flatMap.1 hu
  split at hu
  next tokens hfor =>
    obtain ⟨a, ha, rfl⟩ := List.mem_map.1 hu
    exact hargs tokens (mem_of_argumentFor hfor) a ha
  next =>
    obtain rfl := List.mem_singleton.1 hu
    exact hd l hl

/-- **What holds of a blank, of the lexemes of the macros and of those to be expanded holds of those
that come out.** -/
theorem forall_expands (hblank : P ⟨.whitespace, " "⟩) (htable : table.Forall P)
    {queue out : List Token} (h : Expands table queue out) (hqueue : ∀ t ∈ queue, P t.toLexeme) :
    ∀ t ∈ out, P t.toLexeme := by
  have body : ∀ {t : Token} {d : Definition}, table.applicable t = some d → ∀ l ∈ d.body, P l :=
    fun h => htable _ (Table.mem_of_get? (names_of_applicable h).2)
  induction h with
  | nil => exact hqueue
  | keep _ _ ih =>
    obtain ⟨ht, hts⟩ := List.forall_mem_cons.1 hqueue
    exact List.forall_mem_cons.2 ⟨ht, ih hts⟩
  | object names _ _ ih =>
    obtain ⟨-, hts⟩ := List.forall_mem_cons.1 hqueue
    exact ih (List.forall_mem_append.2 ⟨forall_substitute (body names) (by simp), hts⟩)
  | call names opening closing _ length _ _ ihArgs ih =>
    obtain ⟨-, hts⟩ := List.forall_mem_cons.1 hqueue
    obtain ⟨hargs, htail⟩ := forall_arguments (forall_inLine hblank) hts opening closing
    refine ih (List.forall_mem_append.2 ⟨forall_substitute (body names) fun e he => ?_, htail⟩)
    obtain ⟨a, ha, expands⟩ := exists_argument length ihArgs e he
    exact expands (hargs a (mem_given ha))

end ShaderPass.Macro
