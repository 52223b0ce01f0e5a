import ShaderPass.Condition.Parse
import ShaderPass.Proofs.Condition.Tokens
import ShaderPass.Proofs.Condition.Value

/-!
# Proofs/Condition/Parse — the expressions that texts write

    10 - 4 - 3         read 4:   10        more 4:   - 4   - 3
                       the first operand             each operator with its second operand

`parseFrom` and `extend` are taken here without the proofs they carry, as `read` and `more`, with
one equation for each form of what they read.  What they read writes the expression that they give
(`writes_of_read`, by their own recursion), and all that writes an expression at a level is read, up
to an operator that would go on (`read_of_writes`, by induction on what is written).  With what is
known of the tokens of a text, a text is read as exactly the expression that it writes
(`parse_eq_ok_iff`), and evaluates to its value (`parse_evaluate_iff`).
-/

namespace ShaderPass.Condition

variable {k : Nat} {e l : Expr} {s : Symbol} {ts us rest : List Token}

/-- The expression read at a level, and the tokens after it. -/
def read (k : Nat) (ts : List Token) : Option (Expr × List Token) :=
  (parseFrom k ts).map fun r => (r.1, r.2.1)

/-- The expression that goes on from a first operand at a level, and the tokens after it. -/
def more (k : Nat) (l : Expr) (ts : List Token) : Option (Expr × List Token) :=
  (extend k l ts).map fun r => (r.1, r.2.1)

/-- An expression takes at least one token. -/
theorem length_read_lt {r : Expr × List Token} (h : read k ts = some r) : r.2.length < ts.length := by
  obtain ⟨⟨e, rest, hlt⟩, -, rfl⟩ := Option.map_eq_some_iff.1 h
  exact hlt

/-- Below the last level an expression is one of the next level and what goes on from it. -/
theorem read_of_lt (hk : k < 6) :
    read k ts = (read (k + 1) ts).bind fun r => more k r.1 r.2 := by
  rw [read, parseFrom.eq_def, if_pos (show k < unaryLevel from hk), read]
  cases parseFrom (k + 1) ts with
  | none => rfl
  | some r =>
    obtain ⟨first, rest, h⟩ := r
    dsimp only
    rw [Option.map_some, Option.bind_some, more]
    cases extend k first rest <;> rfl

theorem read_nil : read 6 [] = none := by
  rw [read, parseFrom, if_neg (by decide)]
  rfl

theorem read_number (v : Int64) (rest : List Token) :
    read 6 (.number v :: rest) = some (.number v, rest) := by
  rw [read, parseFrom, if_neg (by decide)]
  rfl

/-- A unary operator goes with the operand after it. -/
theorem read_unary {op : UnaryOp} (hs : s.unary? = some op) (rest : List Token) :
    read 6 (.symbol s :: rest) =
      (read 6 rest).map fun r => (.unary op r.1, r.2) := by
  rw [read, parseFrom, if_neg (by decide), hs]
  dsimp only
  rw [read]
  cases parseFrom 6 rest <;> rfl

/-- Parentheses hold an expression of any level. -/
theorem read_opening (rest : List Token) : read 6 (.symbol .opening :: rest) =
    (read 0 rest).bind fun r =>
      match r.2 with
      | .symbol .closing :: rest' => some (r.1, rest')
      | _ => none := by
  rw [read, parseFrom, if_neg (by decide), show Symbol.opening.unary? = none from rfl]
  dsimp only
  rw [if_pos rfl, read]
  cases parseFrom 0 rest with
  | none => rfl
  | some r =>
    obtain ⟨e, rest', h⟩ := r
    rcases rest' with _ | ⟨v | s, rest'⟩
    · rfl
    · rfl
    · cases s <;> rfl

theorem read_other (hs : s.unary? = none) (hopening : s ≠ .opening) :
    read 6 (.symbol s :: rest) = none := by
  rw [read, parseFrom, if_neg (by decide), hs]
  dsimp only
  rw [if_neg hopening]
  rfl

/-- An expression goes on with an operator of its level and an operand of the next one. -/
theorem more_binary {op : BinaryOp} (hs : s.binary? = some op) (hop : op.level = k) :
    more k l (.symbol s :: rest) =
      (read (k + 1) rest).bind fun r => more k (.binary op l r.1) r.2 := by
  rw [more, extend, hs]
  dsimp only
  rw [if_pos hop, read]
  cases parseFrom (k + 1) rest with
  | none => rfl
  | some r =>
    obtain ⟨right, rest', h⟩ := r
    dsimp only
    rw [Option.map_some, Option.bind_some, more]
    cases extend k (.binary op l right) rest' <;> rfl

/-! ## Symbols and operators -/

theorem mem_unarySymbols_iff {op : UnaryOp} : (s, op) ∈ unarySymbols ↔ s.unary? = some op := by
  cases s <;> cases op <;> decide

theorem mem_binarySymbols_iff {op : BinaryOp} :
    (s, op) ∈ binarySymbols.getD k [] ↔ s.binary? = some op ∧ op.level = k := by
  constructor
  · intro h
    have hlevels : ∀ j : Fin 6, ∀ r ∈ binarySymbols.getD j [],
        r.1.binary? = some r.2 ∧ r.2.level = j := by decide
    have hk : k < 6 := by
      refine Nat.lt_of_not_le fun hk => ?_
      rw [List.getD_eq_getElem?_getD, List.getElem?_eq_none hk] at h
      cases h
    exact hlevels ⟨k, hk⟩ _ h
  · rintro ⟨hs, rfl⟩
    cases s <;> cases hs <;> decide

/-- No operator of a level, or of a tighter one, goes on with these tokens. -/
def Stops (k : Nat) (ts : List Token) : Prop :=
  ∀ s op, ts.head? = some (.symbol s) → s.binary? = some op → op.level < k

theorem Stops.mono {k' : Nat} (h : Stops k ts) (hk : k ≤ k') : Stops k' ts :=
  fun s op hs hop => Nat.lt_of_lt_of_le (h s op hs hop) hk

/-- The next token is no operator of the level: the operand stands as it is. -/
theorem more_other (h : ∀ s rest op, ts = .symbol s :: rest → s.binary? = some op → op.level ≠ k) :
    more k l ts = some (l, ts) := by
  rw [more, extend.eq_def]
  split
  next s rest =>
    split
    next op hop =>
      rw [if_neg (h s rest op rfl hop)]
      rfl
    next => rfl
  next => rfl

/-- An expression ends where no operator of its level or above follows. -/
theorem more_of_stops (h : Stops k ts) : more k l ts = some (l, ts) :=
  more_other fun s _ op hts hs => Nat.ne_of_lt (h s op (congrArg List.head? hts) hs)

/-! ## What is read is what is written -/

namespace Writes

variable {α : Type} {w : Spelling α} {as : List α}

theorem le_six (h : Writes w k e as) : k ≤ 6 := by
  induction h with
  | number | parenthesized | unary => exact Nat.le_refl 6
  | binary _ _ _ _ ih => exact ih
  | tighter _ ih => omega
  | blankBefore _ _ ih | blankAfter _ _ ih => exact ih

end Writes

mutual

/-- **What is read as an expression writes it**, and the rest is left. -/
theorem writes_of_read {k : Nat} {ts rest : List Token} {e : Expr} (hk : k ≤ 6)
    (h : read k ts = some (e, rest)) : ∃ us, ts = us ++ rest ∧ Writes tokenSpelling k e us := by
  by_cases hlt : k < 6
  · rw [read_of_lt hlt, Option.bind_eq_some_iff] at h
    obtain ⟨⟨l, mid⟩, hread, hmore⟩ := h
    have := length_read_lt hread
    obtain ⟨us, rfl, hl⟩ := writes_of_read hlt hread
    obtain ⟨vs, rfl, he⟩ := writes_of_more hlt hmore
    exact ⟨us ++ vs, (List.append_assoc ..).symm, he us (.tighter hl)⟩
  · obtain rfl : k = 6 := by omega
    rcases hts : ts with _ | ⟨v | s, after⟩
    · rw [hts, read_nil] at h
      cases h
    · rw [hts, read_number] at h
      cases h
      exact ⟨[.number v], rfl, .number rfl⟩
    have hlength : after.length < ts.length := by rw [hts]; exact Nat.lt_succ_self _
    rw [hts] at h
    cases hs : s.unary? with
    | some op =>
      rw [read_unary hs, Option.map_eq_some_iff] at h
      obtain ⟨⟨e, rest⟩, hread, ⟨⟩⟩ := h
      obtain ⟨us, rfl, he⟩ := writes_of_read (Nat.le_refl 6) hread
      exact ⟨.symbol s :: us, rfl, .unary (mem_unarySymbols_iff.2 hs) rfl he⟩
    | none =>
      by_cases hopening : s = .opening
      · rw [hopening, read_opening, Option.bind_eq_some_iff] at h
        obtain ⟨⟨e, mid⟩, hread, hclosing⟩ := h
        obtain ⟨us, rfl, he⟩ := writes_of_read (Nat.zero_le 6) hread
        split at hclosing
        next hmid =>
          cases hclosing
          obtain rfl := hmid
          exact ⟨.symbol .opening :: us ++ [.symbol .closing], by simp [hopening],
            .parenthesized rfl he rfl⟩
        next => cases hclosing
      · rw [read_other hs hopening] at h
        cases h
termination_by (ts.length, 7 - k)

/-- What an expression goes on with writes the rest of it. -/
theorem writes_of_more {k : Nat} {l : Expr} {ts rest : List Token} {e : Expr} (hk : k < 6)
    (h : more k l ts = some (e, rest)) : ∃ us, ts = us ++ rest ∧
      ∀ ls, Writes tokenSpelling k l ls → Writes tokenSpelling k e (ls ++ us) := by
  by_cases hgoes : ∃ s after op, ts = .symbol s :: after ∧ s.binary? = some op ∧ op.level = k
  · obtain ⟨s, after, op, rfl, hs, hop⟩ := hgoes
    rw [more_binary hs hop, Option.bind_eq_some_iff] at h
    obtain ⟨⟨r, mid⟩, hread, hmore⟩ := h
    have := length_read_lt hread
    obtain ⟨us, rfl, hr⟩ := writes_of_read hk hread
    obtain ⟨vs, rfl, he⟩ := writes_of_more hk hmore
    refine ⟨.symbol s :: us ++ vs, by simp, fun ls hl => ?_⟩
    have hbinary := Writes.binary (mem_binarySymbols_iff.2 ⟨hs, hop⟩) hl rfl hr
    simpa using he _ hbinary
  · rw [more_other fun s after op hts hs hop => hgoes ⟨s, after, op, hts, hs, hop⟩] at h
    cases h
    exact ⟨[], rfl, fun ls hl => by rwa [List.append_nil]⟩
termination_by (ts.length, 0)

end

/-- **What is written is read**, up to where it stops: by induction on what is written, for what
comes after it in general. -/
theorem read_of_writes (h : Writes tokenSpelling k e us) (hrest : Stops (k + 1) rest) :
    read k (us ++ rest) = more k e rest := by
  have hsix (e : Expr) (rest : List Token) : more 6 e rest = some (e, rest) :=
    more_of_stops fun s op _ _ => by cases op <;> decide
  induction h generalizing rest with
  | number ht =>
    cases ht
    rw [List.singleton_append, read_number, hsix]
  | parenthesized ho _ hc ih =>
    cases ho
    cases hc
    have hclosing : Stops 0 (.symbol .closing :: rest) := by
      rintro s op ⟨⟩ ⟨⟩
    rw [List.append_assoc, List.append_assoc, List.singleton_append, List.singleton_append,
      read_opening, ih (hclosing.mono (Nat.zero_le 1)), more_of_stops hclosing, hsix]
    rfl
  | unary hmem hs _ ih =>
    cases hs
    rw [List.append_assoc, List.singleton_append, read_unary (mem_unarySymbols_iff.1 hmem), ih hrest,
      hsix, hsix]
    rfl
  | @binary k s op l r as bs cs hmem hl hs hr ihl ihr =>
    cases hs
    obtain ⟨hs, hop⟩ := mem_binarySymbols_iff.1 hmem
    have hleft : Stops (k + 1) (.symbol s :: (cs ++ rest)) := by
      rintro s' op' ⟨⟩ hs'
      rw [hs] at hs'
      cases hs'
      omega
    rw [List.append_assoc, List.append_assoc, List.singleton_append, ihl hleft, more_binary hs hop,
      ihr (hrest.mono (Nat.le_succ _)), more_of_stops hrest, Option.bind_some]
  | @tighter k e as h ih =>
    have hk := h.le_six
    rw [read_of_lt hk, ih (hrest.mono (Nat.le_succ _)), more_of_stops hrest, Option.bind_some]
  | blankBefore hb => exact hb.elim
  | blankAfter hb => exact hb.elim

/-- **Tokens are parsed as the expression that they write, and as none if they write none.** -/
theorem parseTokens_eq_some_iff : parseTokens us = some e ↔ Writes tokenSpelling 0 e us := by
  have hread : parseTokens us = some e ↔ read 0 us = some (e, []) := by
    rw [parseTokens, read]
    cases parseFrom 0 us with
    | none => simp
    | some r =>
      obtain ⟨e', _ | ⟨t, rest⟩, h⟩ := r <;> simp
  rw [hread]
  constructor
  · intro h
    obtain ⟨vs, rfl, he⟩ := writes_of_read (Nat.zero_le 6) h
    rwa [List.append_nil]
  · intro h
    have hnil (k : Nat) : Stops k [] := fun _ _ => nofun
    have := read_of_writes h (hnil 1)
    rwa [List.append_nil, more_of_stops (hnil 0)] at this

/-! ## The tokens of an expression come one after the other -/

/-- Tokens that make an operand. -/
structure Operand (us : List Token) : Prop where
  follows : us.IsChain Token.Follows
  starts : ∃ t ∈ us.head?, t.starts = true
  ends : ∃ t ∈ us.getLast?, t.ends = true

namespace Operand

/-- A symbol that ends no operand may stand before one. -/
theorem before (h : Operand us) (hs : (Token.symbol s).ends = false) :
    (.symbol s :: us).IsChain Token.Follows := by
  obtain ⟨t, ht, hstarts⟩ := h.starts
  obtain ⟨us, rfl⟩ := List.head?_eq_some_iff.1 ht
  refine List.isChain_cons_cons.2 ⟨?_, h.follows⟩
  rw [Token.Follows, if_neg (by simp [hs])]
  exact hstarts

/-- A symbol may stand after an operand. -/
theorem after (h : Operand us) (hus : (.symbol s :: ts).IsChain Token.Follows) :
    (us ++ .symbol s :: ts).IsChain Token.Follows := by
  refine List.isChain_append.2 ⟨h.follows, hus, fun t ht u hu => ?_⟩
  obtain ⟨t', ht', hends⟩ := h.ends
  obtain rfl := Option.mem_unique ht ht'
  cases hu
  rw [Token.Follows, if_pos hends]
  exact ⟨s, rfl⟩

theorem cons (h : Operand us) (hstarts : (Token.symbol s).starts = true)
    (hends : (Token.symbol s).ends = false) : Operand (.symbol s :: us) := by
  refine ⟨h.before hends, ⟨_, rfl, hstarts⟩, ?_⟩
  obtain ⟨t, ht, hends⟩ := h.ends
  exact ⟨t, by rw [List.getLast?_cons, Option.mem_def.1 ht]; rfl, hends⟩

theorem close (h : Operand us) : Operand (us ++ [.symbol .closing]) := by
  refine ⟨h.after (.singleton _), ?_, ⟨.symbol .closing, by simp, rfl⟩⟩
  obtain ⟨t, ht, hstarts⟩ := h.starts
  exact ⟨t, by rw [List.head?_append, Option.mem_def.1 ht]; rfl, hstarts⟩

/-- Two operands with a binary operator between them are one. -/
theorem join (hts : Operand ts) (hus : Operand us) (hs : (Token.symbol s).ends = false) :
    Operand (ts ++ .symbol s :: us) := by
  refine ⟨hts.after (hus.before hs), ?_, ?_⟩
  · obtain ⟨t, ht, hstarts⟩ := hts.starts
    exact ⟨t, by rw [List.head?_append, Option.mem_def.1 ht]; rfl, hstarts⟩
  · obtain ⟨t, ht, hends⟩ := hus.ends
    exact ⟨t, by rw [List.getLast?_append, List.getLast?_cons, Option.mem_def.1 ht]; rfl, hends⟩

/-- **What writes an expression is an operand**: its tokens follow each other as tokens can. -/
theorem of_writes (h : Writes tokenSpelling k e us) : Operand us := by
  induction h with
  | @number n us ht =>
    obtain rfl : us = [.number n] := ht
    exact ⟨.singleton _, ⟨_, rfl, rfl⟩, ⟨_, rfl, rfl⟩⟩
  | parenthesized ho _ hc ih =>
    cases ho
    cases hc
    exact (ih.cons rfl rfl).close
  | unary hmem hs _ ih =>
    cases hs
    have hunary := mem_unarySymbols_iff.1 hmem
    refine ih.cons ?_ ?_
    all_goals
      revert hunary
      cases ‹Symbol› <;> simp [Symbol.unary?, Token.starts, Token.ends]
  | binary hmem _ hs _ ihl ihr =>
    cases hs
    obtain ⟨hbinary, -⟩ := mem_binarySymbols_iff.1 hmem
    rw [List.append_assoc]
    refine ihl.join ihr ?_
    revert hbinary
    cases ‹Symbol› <;> simp [Symbol.binary?, Token.ends]
  | tighter _ ih => exact ih
  | blankBefore hb => exact hb.elim
  | blankAfter hb => exact hb.elim

end Operand

/-! ## The expression that a text writes -/

/-- **A text is read as an expression exactly if it writes it.** -/
theorem parse_eq_ok_iff {text : String} :
    parse text = .ok e ↔ Writes textSpelling 0 e text.toList := by
  have hparse : parse text = .ok e ↔ ∃ us, tokens text.toList = some us ∧ parseTokens us = some e := by
    rw [parse, ← Option.bind_eq_some_iff]
    split
    next e' he' => rw [he', Option.some.injEq, Except.ok.injEq]
    next hnone =>
      rw [hnone]
      split <;> simp
  rw [hparse, writes_iff_spelled]
  refine exists_congr fun us => ?_
  rw [parseTokens_eq_some_iff, and_comm]
  refine and_congr_right fun he => ⟨spelled_of_tokens, fun h => tokens_of_spelled h ?_⟩
  exact (Operand.of_writes he).follows

/-- **No text writes two expressions.** -/
theorem Writes.unique {e' : Expr} {cs : List Char} (h : Writes textSpelling 0 e cs)
    (h' : Writes textSpelling 0 e' cs) : e = e' := by
  have hparse (e : Expr) (h : Writes textSpelling 0 e cs) : parse (.ofList cs) = .ok e :=
    parse_eq_ok_iff.2 (by rwa [String.toList_ofList])
  exact Except.ok.inj ((hparse e h).symm.trans (hparse e' h'))

/-- **A text is read as an expression exactly if it writes it**, it writes no other, and it
evaluates to the value of the expression, or fails where that divides by zero.  The least number
divided by `-1` is no failure. -/
theorem parse_evaluate_iff (text : String) (e : Expr) :
    (parse text = .ok e ↔ Writes textSpelling 0 e text.toList) ∧
    (Writes textSpelling 0 e text.toList →
      (∀ e', Writes textSpelling 0 e' text.toList → e' = e) ∧
      (∀ v, evaluate text = .ok v ↔ Value e v.toInt) ∧
      (∀ fault, evaluate text = .error fault ↔ fault = .divisionByZero ∧ DividesByZero e) ∧
      (∀ op l r, e = .binary op l r → op.Divides → Value l (-2 ^ 63) → Value r (-1) →
        ∃ v, evaluate text = .ok v)) := by
  refine ⟨parse_eq_ok_iff, fun h => ?_⟩
  have heval : evaluate text = e.eval := by rw [evaluate, parse_eq_ok_iff.2 h]
  rw [heval]
  refine ⟨fun e' h' => h'.unique h, fun v => eval_eq_ok_iff, fun fault => eval_eq_error_iff, ?_⟩
  rintro op l r rfl hdivides hl hr
  have hundecided (n : Int) : ¬ op.Decides (-2 ^ 63) n := by
    obtain rfl | rfl := hdivides <;> nofun
  obtain ⟨v, hv, -⟩ := (Value.binary hl hundecided hr fun _ => by decide).eval
  exact ⟨v, hv⟩

/-- The least number divided by minus one, where the quotient leaves the words: a sign, parentheses,
two levels of operators and blanks. -/
theorem parse_evaluate_iff_apply :
    evaluate "(-9223372036854775807 - 1) / -1" = .ok Int64.minValue := by
  have hone : Writes textSpelling 6 (.number 1) ['1'] :=
    .number ⟨1, ['1'], [], rfl, .decimal (by decide) ⟨by simp, [1], by decide, rfl, rfl⟩, by simp, rfl⟩
  have hlargest : Writes textSpelling 6 (.number 9223372036854775807)
      "9223372036854775807".toList :=
    .number ⟨9223372036854775807, "9223372036854775807".toList, [], rfl,
      .decimal (by decide) ⟨by simp, [9, 2, 2, 3, 3, 7, 2, 0, 3, 6, 8, 5, 4, 7, 7, 5, 8, 0, 7],
        by decide, rfl, rfl⟩, by simp, rfl⟩
  have hblank : textSpelling.blank ' ' := mem_blank_iff.2 rfl
  have hminus {e : Expr} {cs : List Char} (h : Writes textSpelling 6 e cs) :
      Writes textSpelling 6 (.unary .negate e) ('-' :: cs) :=
    .unary (s := .minus) (by decide) rfl h
  have hleast : Writes textSpelling 4
      (.binary .subtract (.unary .negate (.number 9223372036854775807)) (.number 1))
      "-9223372036854775807 - 1".toList :=
    .binary (s := .minus) (by decide) (.blankAfter hblank (.tighter (.tighter (hminus hlargest)))) rfl
      (.tighter (.blankBefore hblank hone))
  have hinner := hleast.tighter.tighter.tighter.tighter
  have hquotient : Writes textSpelling 5 (.binary .divide _ _)
      "(-9223372036854775807 - 1) / -1".toList :=
    .binary (s := .slash) (by decide)
      (.blankAfter hblank (.tighter (.parenthesized rfl hinner rfl))) rfl
      (.blankBefore hblank (hminus hone))
  have hwrites := hquotient.tighter.tighter.tighter.tighter.tighter
  obtain ⟨-, hvalue, -⟩ := (parse_evaluate_iff _ _).2 hwrites
  exact (hvalue _).2 (eval_eq_ok_iff.1 rfl)

end ShaderPass.Condition
