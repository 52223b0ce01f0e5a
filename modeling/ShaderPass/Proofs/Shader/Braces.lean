import ShaderPass.Proofs.Shader.Grammar

/-!
# Proofs/Shader/Braces — counting braces finds the ones that match

    a { b { c } d } e }
      └─balanced──┘   ▲ the first brace that closes more than is opened

The text of a stage and shared text are found by the depth of braces.  A balanced stretch comes back
to the depth it began at, so the counts pass over it (`closingBrace_append`, `splitShared_append`);
and where a count ends, what it has passed is balanced (`exists_balanced_of_closingBrace`,
`balanced_of_splitShared`).
-/

namespace ShaderPass.Shader

open Grammar

variable {Outside : Token → Prop} {t o c : Token} {us ts rest : List Token} {depth : Nat}

/-! ## One token -/

theorem keyword?_eq_none_of_isPunct {a : Char} (h : t.isPunct a = true) : t.keyword? = none := by
  rw [Token.keyword?, Token.isPunct_iff.1 h]

theorem isBrace_eq_false_iff :
    t.isBrace = false ↔ t.isPunct '{' = false ∧ t.isPunct '}' = false := Bool.or_eq_false_iff

/-- A closing brace ends shared text. -/
theorem endsShared_of_closing (h : c.isPunct '}' = true) : endsShared c = true := by
  rw [endsShared, h, Bool.true_or]

/-- An opening brace ends no shared text. -/
theorem endsShared_of_opening (h : o.isPunct '{' = true) : endsShared o = false := by
  rw [endsShared, Token.isPunct_eq_false_of_ne h (by decide), keyword?_eq_none_of_isPunct h]
  rfl

theorem braceDepth_opening (h : o.isPunct '{' = true) : braceDepth depth o = depth + 1 := if_pos h

/-- A closing brace leads one level out, and from the outermost one nowhere. -/
theorem braceDepth_closing (h : c.isPunct '}' = true) : braceDepth depth c = depth - 1 := by
  rw [braceDepth, Token.isPunct_eq_false_of_ne h (by decide), h]
  rfl

theorem braceDepth_of_noBrace (h : t.isBrace = false) : braceDepth depth t = depth := by
  obtain ⟨hopen, hclose⟩ := isBrace_eq_false_iff.1 h
  rw [braceDepth, hopen, hclose]
  rfl

/-- The brace that closes is looked for a level deeper behind an opening one. -/
theorem closingBrace_opening (h : o.isPunct '{' = true) :
    closingBrace depth (o :: ts) = closingBrace (depth + 1) ts := if_pos h

theorem closingBrace_closing_zero (h : c.isPunct '}' = true) :
    closingBrace 0 (c :: ts) = some (c.span.start, ts) := by
  rw [closingBrace, Token.isPunct_eq_false_of_ne h (by decide), h]
  rfl

/-- A closing brace inside is not the one that is looked for. -/
theorem closingBrace_closing_succ (h : c.isPunct '}' = true) :
    closingBrace (depth + 1) (c :: ts) = closingBrace depth ts := by
  rw [closingBrace, Token.isPunct_eq_false_of_ne h (by decide), h]
  rfl

theorem closingBrace_of_noBrace (h : t.isBrace = false) :
    closingBrace depth (t :: ts) = closingBrace depth ts := by
  obtain ⟨hopen, hclose⟩ := isBrace_eq_false_iff.1 h
  rw [closingBrace.eq_def depth (t :: ts)]
  simp only [hopen, hclose, Bool.false_eq_true, if_false]

/-! ## Balanced stretches -/

namespace Grammar.Balanced

/-- A balanced stretch leaves the depth of braces as it was. -/
theorem foldl_braceDepth (h : Balanced Outside us) : us.foldl braceDepth depth = depth := by
  induction h generalizing depth with
  | nil => rfl
  | token noBrace _ _ ih => rw [List.foldl_cons, braceDepth_of_noBrace noBrace, ih]
  | block opening _ closing _ ihInside ih =>
    rw [List.foldl_cons, List.foldl_append, List.foldl_cons, braceDepth_opening opening, ihInside,
      braceDepth_closing closing, Nat.add_sub_cancel, ih]

/-- **The count to a closing brace passes over a balanced stretch.** -/
theorem closingBrace_append (h : Balanced Outside us) :
    closingBrace depth (us ++ ts) = closingBrace depth ts := by
  induction h generalizing depth ts with
  | nil => rfl
  | token noBrace _ _ ih => rw [List.cons_append, closingBrace_of_noBrace noBrace, ih]
  | block opening _ closing _ ihInside ih =>
    rw [List.cons_append, List.append_assoc, closingBrace_opening opening, ihInside,
      List.cons_append, closingBrace_closing_succ closing, ih]

/-- What is outside of braces may be of more sorts. -/
theorem mono {Outside' : Token → Prop} (h : Balanced Outside us) (hs : ∀ t, Outside t → Outside' t) :
    Balanced Outside' us := by
  induction h with
  | nil => exact .nil
  | token noBrace outside _ ih => exact .token noBrace (hs _ outside) (ih hs)
  | block opening inside closing _ _ ih => exact .block opening inside closing (ih hs)

end Grammar.Balanced

/-- **What is passed over on the way to a closing brace is balanced.** -/
theorem exists_balanced_of_closingBrace {r : Nat × List Token}
    (h : closingBrace depth ts = some r) : ∃ us c after, ts = us ++ c :: after ∧
      Balanced (fun _ => True) us ∧ c.isPunct '}' = true ∧
      closingBrace depth (c :: after) = some r := by
  -- what follows a nested block is shorter, but it is not the tail of the list
  induction hn : ts.length using Nat.strongRecOn generalizing ts depth with
  | _ n ih =>
  obtain _ | ⟨t, ts⟩ := ts
  · cases h
  · cases hclose : t.isPunct '}' with
    | true => exact ⟨[], t, ts, rfl, .nil, hclose, h⟩
    | false =>
      cases hopen : t.isPunct '{' with
      | true =>
        rw [closingBrace_opening hopen] at h
        obtain ⟨us, c, after, rfl, inside, hc, h⟩ :=
          ih ts.length (hn ▸ Nat.lt_succ_self _) h rfl
        rw [closingBrace_closing_succ hc] at h
        obtain ⟨us', c', after', rfl, more, hc', h⟩ := ih after.length (by subst hn; simp; omega) h rfl
        exact ⟨t :: (us ++ c :: us'), c', after', by simp, .block hopen inside hc more, hc', h⟩
      | false =>
        have noBrace : t.isBrace = false := isBrace_eq_false_iff.2 ⟨hopen, hclose⟩
        rw [closingBrace_of_noBrace noBrace] at h
        obtain ⟨us, c, after, rfl, more, hc, h⟩ := ih ts.length (hn ▸ Nat.lt_succ_self _) h rfl
        exact ⟨t :: us, c, after, rfl, .token noBrace trivial more, hc,
          by simpa only [closingBrace_of_noBrace noBrace] using h⟩

/-! ## Shared text -/

theorem splitShared_of_ends (h : endsShared t = true) : splitShared 0 (t :: ts) = ([], t :: ts) :=
  if_pos ⟨rfl, h⟩

/-- Shared text takes a token that does not end it. -/
theorem splitShared_cons (h : depth = 0 → endsShared t = false) :
    splitShared depth (t :: ts) =
      (t :: (splitShared (braceDepth depth t) ts).1, (splitShared (braceDepth depth t) ts).2) := by
  rw [splitShared, if_neg]
  rintro ⟨hd, he⟩
  exact Bool.false_ne_true ((h hd).symm.trans he)

theorem splitShared_of_noBrace (noBrace : t.isBrace = false) (h : depth = 0 → endsShared t = false) :
    splitShared depth (t :: ts) = (t :: (splitShared depth ts).1, (splitShared depth ts).2) := by
  rw [splitShared_cons h, braceDepth_of_noBrace noBrace]

theorem splitShared_opening (h : o.isPunct '{' = true) : splitShared depth (o :: ts) =
    (o :: (splitShared (depth + 1) ts).1, (splitShared (depth + 1) ts).2) := by
  rw [splitShared_cons fun _ => endsShared_of_opening h, braceDepth_opening h]

theorem splitShared_closing (h : c.isPunct '}' = true) : splitShared (depth + 1) (c :: ts) =
    (c :: (splitShared depth ts).1, (splitShared depth ts).2) := by
  rw [splitShared_cons (fun h => absurd h (Nat.succ_ne_zero _)), braceDepth_closing h]
  rfl

/-- **Shared text goes on over a balanced stretch**, unless what ends it stands outside of the
braces. -/
theorem Grammar.Balanced.splitShared_append (h : Balanced Outside us)
    (hs : depth = 0 → ∀ t, Outside t → endsShared t = false) :
    splitShared depth (us ++ ts) = (us ++ (splitShared depth ts).1, (splitShared depth ts).2) := by
  induction h generalizing depth ts with
  | nil => rfl
  | token noBrace outside _ ih =>
    rw [List.cons_append, splitShared_of_noBrace noBrace (fun hd => hs hd _ outside), ih hs]
    rfl
  | block opening _ closing _ ihInside ih =>
    rw [List.cons_append, List.append_assoc, splitShared_opening opening,
      ihInside (fun h => absurd h (Nat.succ_ne_zero _)), List.cons_append,
      splitShared_closing closing, ih hs]
    simp only [List.cons_append, List.append_assoc]

/-- Shared text with a brace that is not closed reaches to the end. -/
theorem splitShared_of_closingBrace_eq_none (h : closingBrace depth ts = none) :
    splitShared (depth + 1) ts = (ts, []) := by
  induction ts generalizing depth with
  | nil => rfl
  | cons t ts ih =>
    cases hopen : t.isPunct '{' with
    | true => rw [splitShared_opening hopen, ih (closingBrace_opening hopen ▸ h)]
    | false =>
      cases hclose : t.isPunct '}' with
      | false =>
        have noBrace : t.isBrace = false := isBrace_eq_false_iff.2 ⟨hopen, hclose⟩
        rw [splitShared_of_noBrace noBrace (fun h => absurd h (Nat.succ_ne_zero _)),
          ih (closingBrace_of_noBrace noBrace ▸ h)]
      | true =>
        obtain _ | depth := depth
        · rw [closingBrace_closing_zero hclose] at h
          cases h
        · rw [splitShared_closing hclose, ih (closingBrace_closing_succ hclose ▸ h)]

/-- **Shared text that something ends is balanced**, and it ends at the first that can. -/
theorem balanced_of_splitShared {u : Token} (h : splitShared 0 ts = (us, u :: rest)) :
    ts = us ++ u :: rest ∧ Balanced (fun t => endsShared t = false) us ∧ endsShared u = true := by
  induction hn : ts.length using Nat.strongRecOn generalizing ts us with
  | _ n ih =>
  obtain _ | ⟨t, ts⟩ := ts
  · cases h
  · cases hends : endsShared t with
    | true =>
      rw [splitShared_of_ends hends] at h
      cases h
      exact ⟨rfl, .nil, hends⟩
    | false =>
      cases hopen : t.isPunct '{' with
      | true =>
        rw [splitShared_opening hopen] at h
        cases hblock : closingBrace 0 ts with
        | none =>
          rw [splitShared_of_closingBrace_eq_none hblock] at h
          cases h
        | some r =>
          obtain ⟨vs, c, after, rfl, inside, hc, -⟩ := exists_balanced_of_closingBrace hblock
          rw [inside.splitShared_append (fun h => absurd h (Nat.succ_ne_zero _)),
            splitShared_closing hc] at h
          rcases hsplit : splitShared 0 after with ⟨ws, after'⟩
          rw [hsplit] at h
          obtain ⟨rfl, rfl⟩ := Prod.mk.inj h
          obtain ⟨rfl, more, hu⟩ := ih after.length (by subst hn; simp; omega) hsplit rfl
          exact ⟨by simp, .block hopen inside hc more, hu⟩
      | false =>
        have hclose : t.isPunct '}' = false := eq_false_of_ne_true fun h =>
          Bool.false_ne_true (hends.symm.trans (endsShared_of_closing h))
        have noBrace : t.isBrace = false := isBrace_eq_false_iff.2 ⟨hopen, hclose⟩
        rw [splitShared_of_noBrace noBrace fun _ => hends] at h
        rcases hsplit : splitShared 0 ts with ⟨ws, after⟩
        rw [hsplit] at h
        obtain ⟨rfl, rfl⟩ := Prod.mk.inj h
        obtain ⟨rfl, more, hu⟩ := ih ts.length (hn ▸ Nat.lt_succ_self _) hsplit rfl
        exact ⟨rfl, .token noBrace hends more, hu⟩

end ShaderPass.Shader
