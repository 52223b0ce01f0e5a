import ShaderPass.Proofs.Condition.Literals

/-!
# Proofs/Condition/Tokens — reading the tokens of a condition

      1 <   =  2        two tokens between 1 and 2
      1   <=   2        one

Two texts are **apart** when no token can begin in the one and go on in the other (`Apart`): then
their tokens, too, are those of the one and those of the other (`tokens_append`).  What spells the
tokens of an expression falls apart at each of them, for after an operand comes a symbol and after
anything else an operand (`Token.Follows.apart`).  So the tokens of an expression are read from
whatever spells them (`tokens_of_spelled`), and what is read is what is spelled
(`spelled_of_tokens`).
-/

namespace ShaderPass.Condition

open Number (isHexDigit)

variable {base n : Nat} {c : Char} {cs text rest : List Char}

/-! ## Symbols -/

/-- **Of two symbols that start alike the longer is read.** -/
theorem readSymbol_eq_some_iff {s : Symbol} : readSymbol text = some (s, rest) ↔
    text = s.text.toList ++ rest ∧ (s ∈ [.less, .greater, .bang] → rest.head? ≠ some '=') := by
  constructor
  · intro h
    unfold readSymbol at h
    split at h
    case h_18 => cases h
    all_goals
      obtain ⟨rfl, rfl⟩ := Prod.mk.inj (Option.some.inj h)
      refine ⟨rfl, fun hs => ?_⟩
      first
        | exact absurd hs (by decide)
        | simpa [List.head?_eq_some_iff]
  · rintro ⟨rfl, hlonger⟩
    have hrest (hs : s ∈ [.less, .greater, .bang]) (ds : List Char) (h : rest = '=' :: ds) : False :=
      hlonger hs (congrArg List.head? h)
    cases s
    case less => exact readSymbol.eq_7 rest (hrest (by decide))
    case greater => exact readSymbol.eq_8 rest (hrest (by decide))
    case bang => exact readSymbol.eq_9 rest (hrest (by decide))
    all_goals rfl

theorem text_ne_nil (s : Symbol) : s.text.toList ≠ [] := by cases s <;> decide

/-! ## Texts side by side -/

/-- Two characters that, side by side, could be read as one token or as part of one. -/
def Joins (c d : Char) : Prop :=
  (c.isAlphanum = true ∧ d.isAlphanum = true) ∨
    (c ∈ ['|', '&', '=', '!', '<', '>'] ∧ d ∈ ['|', '&', '='])

instance (c d : Char) : Decidable (Joins c d) := by unfold Joins; infer_instance

/-- No token is read across the border of two texts. -/
def Apart (u v : List Char) : Prop := ∀ c ∈ u.getLast?, ∀ d ∈ v.head?, ¬ Joins c d

variable {u v w : List Char}

/-- What is apart from a text is so from all that it ends with. -/
theorem Apart.suffix (h : Apart u v) (hw : w <:+ u) : Apart w v := by
  intro c hc
  obtain ⟨u', rfl⟩ := hw
  exact h c (List.mem_getLast?_append_of_mem_getLast? hc)

/-- The parts of a symbol are joined. -/
theorem not_apart_of_text_eq {s : Symbol} (h : s.text.toList = u ++ v) (hu : u ≠ []) (hv : v ≠ []) :
    ¬ Apart u v := by
  obtain ⟨c, u, rfl⟩ := List.exists_cons_of_ne_nil hu
  obtain ⟨d, v, rfl⟩ := List.exists_cons_of_ne_nil hv
  have hlength : s.text.toList.length ≤ 2 := by cases s <;> decide
  rw [h, List.length_append, List.length_cons, List.length_cons] at hlength
  obtain rfl : u = [] := List.length_eq_zero_iff.1 (by omega)
  obtain rfl : v = [] := List.length_eq_zero_iff.1 (by omega)
  have hjoins : Joins c d := by
    cases s
    all_goals
      simp only [Symbol.text, String.reduceToList, List.cons_append, List.nil_append,
        List.cons.injEq, reduceCtorEq, and_false, and_true] at h
      try
        obtain ⟨rfl, rfl⟩ := h
        decide
  exact fun hapart => hapart c rfl d rfl hjoins

/-- A symbol is read alike before what is apart from it. -/
theorem readSymbol_append (h : Apart (c :: u) v) :
    readSymbol (c :: u ++ v) = (readSymbol (c :: u)).map fun r => (r.1, r.2 ++ v) := by
  cases hu : readSymbol (c :: u) with
  | some r =>
    obtain ⟨s, rest⟩ := r
    obtain ⟨htext, hlonger⟩ := readSymbol_eq_some_iff.1 hu
    rw [Option.map_some, readSymbol_eq_some_iff, htext]
    refine ⟨List.append_assoc .., fun hs => ?_⟩
    cases rest with
    | cons d rest => exact hlonger hs
    | nil =>
      rw [htext, List.append_nil] at h
      intro hv
      simp only [List.mem_cons, List.not_mem_nil, or_false] at hs
      obtain rfl | rfl | rfl := hs
      · exact h '<' rfl '=' hv (by decide)
      · exact h '>' rfl '=' hv (by decide)
      · exact h '!' rfl '=' hv (by decide)
  | none =>
    rw [Option.map_none, Option.eq_none_iff_forall_ne_some]
    rintro ⟨s, rest⟩ hs
    obtain ⟨htext, hlonger⟩ := readSymbol_eq_some_iff.1 hs
    have hwhole (ds : List Char) (hds : c :: u = s.text.toList ++ ds) (hrest : rest = ds ++ v) :
        False := by
      have : readSymbol (c :: u) = some (s, ds) := by
        refine readSymbol_eq_some_iff.2 ⟨hds, fun hs hd => hlonger hs ?_⟩
        rw [hrest, List.head?_append, hd, Option.some_or]
      rw [hu] at this
      cases this
    obtain ⟨ds, hds, hv⟩ | ⟨ds, hds, hrest⟩ := List.append_eq_append_iff.1 htext
    · rcases ds with _ | ⟨d, ds⟩
      · exact hwhole [] (by rw [hds, List.append_nil, List.append_nil]) hv.symm
      · refine not_apart_of_text_eq hds (List.cons_ne_nil c u) (List.cons_ne_nil d ds) ?_
        intro x hx y hy
        exact h x hx y (by rw [hv]; exact hy)
    · exact hwhole ds hds hrest

/-- Behind letters and digits, what is apart starts with neither. -/
theorem Apart.not_isAlphanum (h : Apart (c :: u) v) (hu : ∀ x ∈ c :: u, x.isAlphanum = true) :
    ∀ d ∈ v.head?, d.isAlphanum = false := by
  intro d hd
  have hlast := List.getLast?_eq_some_getLast (List.cons_ne_nil c u)
  have hnot := h _ hlast d hd
  rw [Joins, not_or, not_and] at hnot
  exact Bool.eq_false_iff.2 (hnot.1 (hu _ (List.getLast_mem _)))

open readDigits (readIn) in
/-- Digits are read alike before what does not go on with letters or digits. -/
theorem readIn_append {p : Char → Bool} (hp : ∀ c, p c = true → c.isAlphanum = true)
    (hv : (∀ x ∈ u, x.isAlphanum = true) → ∀ d ∈ v.head?, d.isAlphanum = false) :
    readIn base p (u ++ v) = ((readIn base p u).1, (readIn base p u).2 ++ v) := by
  by_cases hall : ∀ x ∈ u, p x = true
  · have hstop : v.takeWhile p = [] ∧ v.dropWhile p = v := by
      refine takeWhile_stop fun d hd => Bool.eq_false_iff.2 fun hpd => ?_
      have := hv (fun x hx => hp x (hall x hx)) d hd
      rw [hp d hpd] at this
      cases this
    rw [readIn, List.takeWhile_append_of_pos hall, List.dropWhile_append_of_pos hall, hstop.1,
      hstop.2, List.append_nil, readIn, List.takeWhile_eq_self_iff.2 hall,
      List.dropWhile_eq_nil_iff.2 hall, List.nil_append]
  · have hdrop : u.dropWhile p ≠ [] := fun h => hall (List.dropWhile_eq_nil_iff.1 h)
    have htake : (u.takeWhile p).length ≠ u.length := by
      have := congrArg List.length (List.takeWhile_append_dropWhile (p := p) (l := u))
      have := List.length_pos_iff.2 hdrop
      rw [List.length_append] at *
      omega
    rw [readIn, readIn, List.takeWhile_append, List.dropWhile_append, if_neg htake, if_neg]
    simpa using hdrop

/-- A literal at the end of a first text is read as it is without the second. -/
theorem readDigits_append (hc : c.isDigit = true) (h : Apart (c :: u) v) :
    readDigits (c :: u ++ v) = ((readDigits (c :: u)).1, (readDigits (c :: u)).2 ++ v) := by
  by_cases hzero : c = '0'
  · subst hzero
    rcases u with _ | ⟨d, u⟩
    · rcases v with _ | ⟨d, v⟩
      · rfl
      have hd := h.not_isAlphanum (by simp [isAlphanum_of_isDigit]) d rfl
      refine readDigits_zero (Bool.eq_false_iff.2 fun hdigit => ?_) ?_ v
      · rw [isAlphanum_of_isDigit hdigit] at hd
        cases hd
      · rintro (rfl | rfl) <;> cases hd
    by_cases hx : d = 'x' ∨ d = 'X'
    · rw [List.cons_append, List.cons_append, readDigits_hexadecimal hx, readDigits_hexadecimal hx]
      refine readIn_append (fun _ => isAlphanum_of_isHexDigit) fun hu => h.not_isAlphanum ?_
      have hmark : d.isAlphanum = true := by obtain rfl | rfl := hx <;> rfl
      exact List.forall_mem_cons.2 ⟨rfl, List.forall_mem_cons.2 ⟨hmark, hu⟩⟩
    cases hd : d.isDigit with
    | true =>
      rw [List.cons_append, List.cons_append, readDigits_octal hd, readDigits_octal hd]
      exact readIn_append (u := d :: u) (fun _ => isAlphanum_of_isDigit) fun hu =>
        h.not_isAlphanum (List.forall_mem_cons.2 ⟨rfl, hu⟩)
    | false =>
      rw [List.cons_append, List.cons_append, readDigits_zero hd hx, readDigits_zero hd hx]
      rfl
  · rw [List.cons_append, readDigits_decimal hzero, readDigits_decimal hzero]
    exact readIn_append (fun _ => isAlphanum_of_isDigit) h.not_isAlphanum

/-! ## Tokens -/

theorem tokens_nil : tokens [] = some [] := by rw [tokens]

theorem tokens_space (hc : isSpace c = true) : tokens (c :: text) = tokens text := by
  rw [tokens, if_pos hc]

/-- A digit starts a literal, which goes up to its suffix. -/
theorem tokens_number (hc : c.isDigit = true) : tokens (c :: text) =
    (readDigits (c :: text)).1.bind fun n =>
      (tokens (dropSuffix (readDigits (c :: text)).2)).map (.number (Int64.ofNat n) :: ·) := by
  have hspace : ¬ isSpace c = true := by
    rw [isSpace]
    simp only [Bool.or_eq_true, beq_iff_eq]
    rintro (((rfl | rfl) | rfl) | rfl) <;> cases hc
  rw [tokens, if_neg hspace, dif_pos hc]
  cases (readDigits (c :: text)).1 <;> rfl

theorem tokens_symbol (hspace : isSpace c = false) (hdigit : c.isDigit = false) :
    tokens (c :: text) =
      (readSymbol (c :: text)).bind fun r => (tokens r.2).map (.symbol r.1 :: ·) := by
  rw [tokens, if_neg (by simp [hspace]), dif_neg (by simp [hdigit])]
  split
  next s rest hs => rw [hs]; rfl
  next hs => rw [hs]; rfl

theorem dropSuffix_of_ne (hu : c ≠ 'u') (hU : c ≠ 'U') (text : List Char) :
    dropSuffix (c :: text) = c :: text :=
  dropSuffix.eq_3 _ (fun _ h => hu (List.cons.inj h).1) fun _ h => hU (List.cons.inj h).1

/-- At most one letter is dropped as a suffix. -/
theorem eq_suffix_append_dropSuffix (text : List Char) :
    ∃ suffix ∈ [[], ['u'], ['U']], text = suffix ++ dropSuffix text := by
  unfold dropSuffix
  split
  · exact ⟨['u'], by simp, rfl⟩
  · exact ⟨['U'], by simp, rfl⟩
  · exact ⟨[], by simp, rfl⟩

theorem dropSuffix_append (h : u = [] → ∀ d ∈ v.head?, d.isAlphanum = false) :
    dropSuffix (u ++ v) = dropSuffix u ++ v := by
  rcases u with _ | ⟨c, u⟩
  · rcases v with _ | ⟨d, v⟩
    · rfl
    · have hd := h rfl d rfl
      refine dropSuffix_of_ne ?_ ?_ v
      all_goals
        rintro rfl
        cases hd
  · by_cases hu : c = 'u'
    · subst hu; rfl
    by_cases hU : c = 'U'
    · subst hU; rfl
    rw [List.cons_append, dropSuffix_of_ne hu hU, dropSuffix_of_ne hu hU, List.cons_append]

theorem map_cons_bind_append {t : Token} (ts us : Option (List Token)) :
    (ts.bind fun ts => us.map (ts ++ ·)).map (t :: ·) =
      (ts.map (t :: ·)).bind fun ts => us.map (ts ++ ·) := by
  cases ts <;> cases us <;> rfl

/-- **Texts that are apart are read one after the other.** -/
theorem tokens_append (h : Apart u v) :
    tokens (u ++ v) = (tokens u).bind fun ts => (tokens v).map (ts ++ ·) := by
  induction u using tokens.induct with
  | case1 => simp [tokens_nil]
  | case2 c u hspace ih =>
    rw [List.cons_append, tokens_space hspace, tokens_space hspace]
    exact ih (h.suffix (List.suffix_cons c u))
  | case3 c u _ hc n hn ih =>
    have hread := readDigits_append hc h
    obtain ⟨body, hbody, hunsuffixed, -⟩ := readDigits_eq_some hc hn
    obtain ⟨suffix, -, hsuffix⟩ := eq_suffix_append_dropSuffix (readDigits (c :: u)).2
    have hapart : Apart (dropSuffix (readDigits (c :: u)).2) v := by
      refine h.suffix ⟨body ++ suffix, ?_⟩
      rw [List.append_assoc, ← hsuffix, ← hbody]
    have hdrop := dropSuffix_append (u := (readDigits (c :: u)).2) (v := v) fun hnil => by
      rw [hnil, List.append_nil] at hbody
      exact h.not_isAlphanum (hbody ▸ hunsuffixed.isAlphanum)
    rw [List.cons_append, tokens_number hc, tokens_number hc, ← List.cons_append, hread, hn, hdrop,
      Option.bind_some, Option.bind_some, ih hapart, map_cons_bind_append]
  | case4 c u _ hc hn =>
    rw [List.cons_append, tokens_number hc, tokens_number hc, ← List.cons_append,
      readDigits_append hc h, hn]
    rfl
  | case5 c u hspace hc s rest hs ih =>
    have hrest : rest <:+ c :: u := ⟨s.text.toList, (readSymbol_eq_some_iff.1 hs).1.symm⟩
    rw [Bool.not_eq_true] at hspace hc
    rw [List.cons_append, tokens_symbol hspace hc, tokens_symbol hspace hc, ← List.cons_append,
      readSymbol_append h, hs, Option.map_some, Option.bind_some, Option.bind_some,
      ih (h.suffix hrest), map_cons_bind_append]
  | case6 c u hspace hc hs =>
    rw [Bool.not_eq_true] at hspace hc
    rw [List.cons_append, tokens_symbol hspace hc, tokens_symbol hspace hc, ← List.cons_append,
      readSymbol_append h, hs]
    rfl

/-! ## What the tokens of a text are -/

/-- A literal is one token. -/
theorem tokens_literal {x : Int64} (h : IsLiteral x cs) : tokens cs = some [.number x] := by
  obtain ⟨c, text, hcs, hc⟩ := h.first
  obtain ⟨n, body, suffix, rfl, hbody, hsuffix, hn⟩ := h
  have hbound : n < literalBound := by
    have := x.toInt_lt
    rw [hn] at this
    rw [literalBound]
    omega
  have hx : Int64.ofNat n = x := by
    rw [← Int64.toInt_inj, hn]
    exact Int64.toInt_ofNat_of_lt (by rw [literalBound] at hbound; omega)
  simp only [List.mem_cons, List.not_mem_nil, or_false] at hsuffix
  have hhead : ∀ d ∈ suffix.head?, d = 'u' ∨ d = 'U' := by
    obtain rfl | rfl | rfl := hsuffix <;> simp
  have hdrop : dropSuffix suffix = [] := by obtain rfl | rfl | rfl := hsuffix <;> rfl
  rw [hcs, tokens_number hc, ← hcs, readDigits_unsuffixed hbody hbound hhead, Option.bind_some, hdrop,
    tokens_nil, hx]
  rfl

/-- A symbol is one token, however many characters it has. -/
theorem tokens_text (s : Symbol) : tokens s.text.toList = some [.symbol s] := by
  have hread : readSymbol s.text.toList = some (s, []) :=
    readSymbol_eq_some_iff.2 ⟨(List.append_nil _).symm, fun _ => nofun⟩
  obtain ⟨c, text, hc⟩ := List.exists_cons_of_ne_nil (text_ne_nil s)
  have hother : (s.text.toList.all fun c => !isSpace c && !c.isDigit) = true := by
    cases s <;> decide
  rw [hc, List.all_cons, Bool.and_eq_true, Bool.and_eq_true, Bool.not_eq_true', Bool.not_eq_true']
    at hother
  rw [hc, tokens_symbol hother.1.1 hother.1.2, ← hc, hread, Option.bind_some, tokens_nil]
  rfl

/-- **What spells a token is read as it.** -/
theorem tokens_of_token {t : Token} (h : textSpelling.token t cs) : tokens cs = some [t] := by
  cases t with
  | number x => exact tokens_literal h
  | symbol s => exact h ▸ tokens_text s

theorem mem_blank_iff : textSpelling.blank c ↔ isSpace c = true := by
  simp [textSpelling, isSpace, or_assoc]

/-- The tokens that are read are what the text spells. -/
theorem spelled_of_tokens {ts : List Token} (h : tokens cs = some ts) :
    Spelled textSpelling ts cs := by
  induction cs using tokens.induct generalizing ts with
  | case1 =>
    rw [tokens_nil] at h
    exact Option.some.inj h ▸ .nil
  | case2 c cs hspace ih =>
    rw [tokens_space hspace] at h
    exact .blank (mem_blank_iff.2 hspace) (ih h)
  | case3 c cs _ hc n hn ih =>
    rw [tokens_number hc, hn, Option.bind_some, Option.map_eq_some_iff] at h
    obtain ⟨us, hus, rfl⟩ := h
    obtain ⟨body, hbody, hunsuffixed, hbound⟩ := readDigits_eq_some hc hn
    obtain ⟨suffix, hmem, hsuffix⟩ := eq_suffix_append_dropSuffix (readDigits (c :: cs)).2
    have hn : (Int64.ofNat n).toInt = n := Int64.toInt_ofNat_of_lt (by rw [literalBound] at hbound; omega)
    rw [hbody, hsuffix, ← List.append_assoc]
    exact .token (t := .number _) ⟨n, body, suffix, rfl, hunsuffixed, hmem, hn⟩ (ih hus)
  | case4 c cs _ hc hn =>
    rw [tokens_number hc, hn] at h
    cases h
  | case5 c cs hspace hc s rest hs ih =>
    rw [Bool.not_eq_true] at hspace hc
    rw [tokens_symbol hspace hc, hs, Option.bind_some, Option.map_eq_some_iff] at h
    obtain ⟨us, hus, rfl⟩ := h
    rw [(readSymbol_eq_some_iff.1 hs).1]
    exact .token (t := .symbol s) rfl (ih hus)
  | case6 c cs hspace hc hs =>
    rw [Bool.not_eq_true] at hspace hc
    rw [tokens_symbol hspace hc, hs] at h
    cases h

/-- Whether an operand can end with a token. -/
def Token.ends : Token → Bool
  | .number _ | .symbol .closing => true
  | .symbol _ => false

/-- Whether an operand can start with a token. -/
def Token.starts : Token → Bool
  | .number _ => true
  | .symbol s => s ∈ [.opening, .bang, .tilde, .plus, .minus]

/-- Whether a token can come after another in an expression: after an operand comes a symbol, and
after anything else an operand. -/
def Token.Follows (t u : Token) : Prop :=
  if t.ends = true then ∃ s, u = .symbol s else u.starts = true

theorem Token.ne_nil {t : Token} (h : textSpelling.token t cs) : cs ≠ [] := by
  cases t with
  | number =>
    obtain ⟨c, text, rfl, -⟩ := IsLiteral.first h
    exact List.cons_ne_nil c text
  | symbol s => exact h ▸ text_ne_nil s

theorem not_isAlphanum_of_mem_text {s : Symbol} : ∀ c ∈ s.text.toList, c.isAlphanum = false := by
  have hall : (s.text.toList.all fun c => !c.isAlphanum) = true := by cases s <;> decide
  exact fun c hc => by simpa using List.all_eq_true.1 hall c hc

/-- A letter or digit does not join with what is neither. -/
theorem not_joins_of_isAlphanum {d : Char} (hc : c.isAlphanum = true) (hd : d.isAlphanum = false) :
    ¬ Joins c d := by
  rintro (⟨-, hd'⟩ | ⟨hc', -⟩)
  · rw [hd] at hd'
    cases hd'
  · simp only [List.mem_cons, List.not_mem_nil, or_false] at hc'
    obtain rfl | rfl | rfl | rfl | rfl | rfl := hc' <;> cases hc

/-- **Tokens that can come one after the other are not read as one.** -/
theorem Token.Follows.apart {t t' : Token} (h : t.Follows t') (hu : textSpelling.token t u)
    (hv : textSpelling.token t' v) : Apart u v := by
  intro c hc d hd
  have hc := List.mem_of_getLast? hc
  have hd' := List.mem_of_head? hd
  cases t with
  | number x =>
    obtain ⟨s', rfl⟩ : ∃ s, t' = .symbol s := by simpa [Follows, ends] using h
    obtain rfl : v = s'.text.toList := hv
    exact not_joins_of_isAlphanum (IsLiteral.isAlphanum hu c hc) (not_isAlphanum_of_mem_text d hd')
  | symbol s =>
    obtain rfl : u = s.text.toList := hu
    have hnot := not_isAlphanum_of_mem_text c hc
    rintro (⟨hc', -⟩ | ⟨hc', hd''⟩)
    · rw [hnot] at hc'
      cases hc'
    by_cases hs : s = .closing
    · subst hs
      obtain rfl : c = ')' := List.mem_singleton.1 hc
      exact absurd hc' (by decide)
    have hends : (Token.symbol s).ends = false := by
      cases s <;> first | rfl | exact absurd rfl hs
    rw [Follows, if_neg (by simp [hends])] at h
    cases t' with
    | number y =>
      have hdigit := IsLiteral.isAlphanum hv d hd'
      simp only [List.mem_cons, List.not_mem_nil, or_false] at hd''
      obtain rfl | rfl | rfl := hd'' <;> cases hdigit
    | symbol s' =>
      obtain rfl : v = s'.text.toList := hv
      have hother : (s'.text.toList.all fun d => d ∉ ['|', '&', '=']) = true := by
        simp only [starts, List.mem_cons, List.not_mem_nil, or_false, decide_eq_true_eq] at h
        obtain rfl | rfl | rfl | rfl | rfl := h <;> decide
      exact of_decide_eq_true (List.all_eq_true.1 hother d hd') hd''

theorem not_joins_of_isSpace {d : Char} (hd : isSpace d = true) : ¬ Joins c d := by
  simp only [isSpace, Bool.or_eq_true, beq_iff_eq] at hd
  rintro (⟨-, hd'⟩ | ⟨-, hd'⟩)
  all_goals
    obtain ((rfl | rfl) | rfl) | rfl := hd <;> simp at hd'

theorem Apart.append_right (h : Apart u v) (hv : v ≠ []) : Apart u (v ++ w) := by
  intro c hc d hd
  exact h c hc d (by rwa [List.head?_append_of_ne_nil v hv] at hd)

/-- Tokens that can come one after the other are read from what spells them. -/
theorem tokens_of_spelled {ts : List Token} (h : Spelled textSpelling ts cs)
    (hts : ts.IsChain Token.Follows) : tokens cs = some ts := by
  induction h with
  | nil => exact tokens_nil
  | blank hblank _ ih => rw [tokens_space (mem_blank_iff.1 hblank), ih hts]
  | @token t ts as bs ht hrest ih =>
    have hapart : Apart as bs := by
      cases hrest with
      | nil => exact fun _ _ _ h => nomatch h
      | blank hblank =>
        rintro c - d ⟨⟩
        exact not_joins_of_isSpace (mem_blank_iff.1 hblank)
      | token ht' => exact ((List.isChain_cons_cons.1 hts).1.apart ht ht').append_right (Token.ne_nil ht')
    rw [tokens_append hapart, tokens_of_token ht, Option.bind_some, ih hts.tail]
    rfl

end ShaderPass.Condition
