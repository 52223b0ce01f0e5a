import ShaderPass.Proofs.Lexeme.Tiling

/-!
# Proofs/Lexeme/Faults — where reading fails, and how the two modes agree

                               strict                lenient
    /* a * b                   fault                 fault
    "a \" b ⏎ c"               fault                 the quote, as punctuation
    "a \⏎ b"                   one literal           the same literal

A comment is faulted where nothing after its opening closes it.  A quote is faulted, strictly, where it
does not come again on its line, where each backslash is passed over together with the character after
it, a line feed as well.  Nothing else is faulted (`next_fails_iff`), and up to the first fault of a
strict reading the lenient one reads the same.
-/

namespace ShaderPass

namespace Lexeme.Form

variable {quote : Char} {text : List Char}

/-! ## What closes a comment and a literal -/

/-- What is left of a text when each backslash is passed over with the character after it. -/
def unescaped : List Char → List Char
  | [] => []
  | ['\\'] => []
  | '\\' :: _ :: text => unescaped text
  | c :: text => c :: unescaped text

theorem unescaped_cons {c : Char} (h : c ≠ '\\') (text : List Char) :
    unescaped (c :: text) = c :: unescaped text := by
  rw [unescaped]
  · exact fun hc _ => h hc
  · exact fun _ _ hc => absurd hc h

/-- Whether a quote comes again on the line, other than after a backslash. -/
def ComesAgain (quote : Char) (text : List Char) : Prop :=
  quote ∈ (unescaped text).takeWhile (· != '\n')

instance : Decidable (ComesAgain quote text) := inferInstanceAs (Decidable (_ ∈ _))

/-- Whether a text begins with a comment that nothing closes. -/
def OpensComment (text : List Char) : Prop :=
  ∃ body, text = '/' :: '*' :: body ∧ ¬ ['*', '/'] <:+: body

/-- Whether a text begins with a quote that does not come again on its line. -/
def OpensLiteral (quote : Char) (text : List Char) : Prop :=
  ∃ body, text = quote :: body ∧ ¬ ComesAgain quote body

theorem commentClose_eq_none_iff (text : List Char) :
    commentClose text = none ↔ ¬ ['*', '/'] <:+: text := by
  induction text with
  | nil => exact iff_of_true rfl fun h => absurd h.length_le (by decide)
  | cons c text ih =>
    have hprefix : ['*', '/'] <+: c :: text ↔ c = '*' ∧ text.head? = some '/' := by
      cases text with
      | nil => simp
      | cons d text => simp [List.cons_prefix_cons, eq_comm]
    rw [commentClose_cons, List.infix_cons_iff, hprefix, not_or, ← ih]
    split
    next closes => exact iff_of_false (Option.some_ne_none 2) fun h => h.1 closes
    next opens => rw [Option.map_eq_none_iff, and_iff_right opens]

theorem quoteClose_eq_none_iff (hescape : quote ≠ '\\') (hline : quote ≠ '\n') (text : List Char) :
    quoteClose quote text = none ↔ ¬ ComesAgain quote text := by
  unfold ComesAgain
  -- the search comes to the end, an escape, the quote, what ends the line, or any other character
  fun_induction quoteClose quote text with
  | case1 => exact iff_of_true rfl List.not_mem_nil
  | case2 _ text ih => rw [Option.map_eq_none_iff, ih, unescaped]
  | case3 text =>
    rw [unescaped_cons hescape, List.takeWhile_cons_of_pos (by simpa using hline)]
    exact iff_of_false (Option.some_ne_none 1) fun h => h List.mem_cons_self
  | case4 c text last _ ends =>
    refine iff_of_true rfl ?_
    rcases ends with rfl | rfl
    · cases text with
      | nil => exact List.not_mem_nil
      | cons d text => exact absurd rfl fun h => last d text rfl h
    · rw [unescaped_cons (by decide), List.takeWhile_cons_of_neg (by decide)]
      exact List.not_mem_nil
  | case5 c text _ hquote hc ih =>
    obtain ⟨hescape', hline'⟩ := not_or.1 hc
    rw [Option.map_eq_none_iff, ih, unescaped_cons hescape',
      List.takeWhile_cons_of_pos (by simpa using hline'), List.mem_cons, not_or,
      and_iff_right (Ne.symm hquote)]

/-! ## What makes an opening punctuation -/

theorem punct_comment_iff (body : List Char) :
    (form ('/' :: '*' :: body)).1 = .punct ↔ ¬ ['*', '/'] <:+: body := by
  rw [← commentClose_eq_none_iff]
  cases hclose : commentClose body with
  | none =>
    have hblock : blockComment ('/' :: '*' :: body) = 0 := by rw [blockComment, hclose]
    exact iff_of_true (congrArg Prod.fst (form_slash rfl hblock)) rfl
  | some n =>
    rw [form_blockComment hclose]
    exact iff_of_false (fun h => Kind.noConfusion h) (Option.some_ne_none n)

theorem quoted_eq_zero_iff (hescape : quote ≠ '\\') (hline : quote ≠ '\n') (body : List Char) :
    quoted quote (quote :: body) = 0 ↔ ¬ ComesAgain quote body := by
  rw [← quoteClose_eq_none_iff hescape hline, quoted, if_pos rfl]
  cases quoteClose quote body with
  | none => exact iff_of_true rfl rfl
  | some n => exact iff_of_false (Nat.succ_ne_zero n) (Option.some_ne_none n)

theorem punct_doubleQuote_iff (body : List Char) :
    (form ('"' :: body)).1 = .punct ↔ ¬ ComesAgain '"' body := by
  rw [← quoted_eq_zero_iff (by decide) (by decide), form_doubleQuote]
  split
  next closed => exact iff_of_false (fun h => Kind.noConfusion h) closed
  next opened => exact iff_of_true rfl (not_not.1 opened)

theorem punct_quote_iff (body : List Char) :
    (form ('\'' :: body)).1 = .punct ↔ ¬ ComesAgain '\'' body := by
  rw [← quoted_eq_zero_iff (by decide) (by decide), form_quote]
  split
  next closed => exact iff_of_false (fun h => Kind.noConfusion h) closed
  next opened => exact iff_of_true rfl (not_not.1 opened)

end Lexeme.Form

namespace Lexeme.Cursor

open Form (OpensComment OpensLiteral form)

variable {mode : Mode} {c stop : Cursor} {l : Lexeme} {fault : Fault} {text : List Char}

/-! ## What a reading faults -/

/-- Reading fails where a punctuation character shows a fault. -/
theorem next_eq_error_iff :
    c.next mode = .error fault ↔ (form c.rest).1 = .punct ∧ fault? mode c.rest = some fault := by
  rw [next]
  split
  next hnil =>
    rw [hnil]
    constructor
    · intro h
      cases h
    · rintro ⟨-, h⟩
      cases h
  next =>
    dsimp only
    split
    next f hf =>
      split at hf
      next hk => rw [hf, and_iff_right hk, Except.error.injEq, Option.some.injEq]
      next => cases hf
    next hf =>
      constructor
      · intro h
        cases h
      · rintro ⟨hk, h⟩
        rw [if_pos hk] at hf
        cases hf.symm.trans h

theorem fault?_eq_some_iff : fault? mode text = some fault ↔
    (fault = .unterminatedBlockComment ∧ ∃ body, text = '/' :: '*' :: body) ∨
    ((mode = .strict ∧ fault = .unterminatedString) ∧ ∃ body, text = '"' :: body) ∨
    ((mode = .strict ∧ fault = .unterminatedCharacter) ∧ ∃ body, text = '\'' :: body) := by
  unfold fault?
  split <;> simp_all [eq_comm]

/-- An opening is faulted where it is punctuation. -/
theorem punct_and_exists {p : Prop} (opening : List Char) {Open : List Char → Prop}
    (h : ∀ body, (form (opening ++ body)).1 = .punct ↔ Open body) :
    ((form text).1 = .punct ∧ p ∧ ∃ body, text = opening ++ body) ↔
      p ∧ ∃ body, text = opening ++ body ∧ Open body := by
  constructor
  · rintro ⟨hk, hp, body, rfl⟩
    exact ⟨hp, body, rfl, (h body).1 hk⟩
  · rintro ⟨hp, body, rfl, hopen⟩
    exact ⟨(h body).2 hopen, hp, body, rfl⟩

/-- **Reading fails at a comment that nothing closes and, strictly, at such a quote.** -/
theorem next_fails_iff : c.next mode = .error fault ↔
    (fault = .unterminatedBlockComment ∧ OpensComment c.rest) ∨
    ((mode = .strict ∧ fault = .unterminatedString) ∧ OpensLiteral '"' c.rest) ∨
    ((mode = .strict ∧ fault = .unterminatedCharacter) ∧ OpensLiteral '\'' c.rest) := by
  rw [next_eq_error_iff, fault?_eq_some_iff, and_or_left, and_or_left]
  exact or_congr (punct_and_exists ['/', '*'] Form.punct_comment_iff)
    (or_congr (punct_and_exists ['"'] Form.punct_doubleQuote_iff)
      (punct_and_exists ['\''] Form.punct_quote_iff))

/-- A lenient reading fails only at a comment that nothing closes. -/
theorem next_lenient_fails_iff : c.next .lenient = .error fault ↔
    fault = .unterminatedBlockComment ∧ OpensComment c.rest := by
  rw [next_fails_iff]
  refine or_iff_left ?_
  rintro (⟨⟨hmode, -⟩, -⟩ | ⟨⟨hmode, -⟩, -⟩)
  · cases hmode
  · cases hmode

/-! ## What both modes read -/

/-- What is read where reading does not fail, in either mode. -/
def front (c : Cursor) : Option (Lexeme × Cursor) :=
  if c.rest = [] then none
  else some (⟨(form c.rest).1, String.ofList (c.rest.take (form c.rest).2)⟩, c.skip (form c.rest).2)

theorem next_eq_front {r : Option (Lexeme × Cursor)} (h : c.next mode = .ok r) : r = c.front := by
  rw [next] at h
  rw [front]
  split at h
  next hnil => rw [if_pos hnil]; exact (Except.ok.inj h).symm
  next hne =>
    dsimp only at h
    split at h
    next => cases h
    next => rw [if_neg hne]; exact (Except.ok.inj h).symm

/-- What does not fail in a lenient reading is read. -/
theorem next_lenient_eq_ok (h : ¬ OpensComment c.rest) : c.next .lenient = .ok c.front := by
  cases hnext : c.next .lenient with
  | error fault => exact absurd (next_lenient_fails_iff.1 hnext).2 h
  | ok r => rw [next_eq_front hnext]

/-- **What a strict reading reads a lenient one reads.** -/
theorem next_lenient_of_strict {r : Option (Lexeme × Cursor)} (h : c.next .strict = .ok r) :
    c.next .lenient = .ok r := by
  rw [next_lenient_eq_ok, next_eq_front h]
  intro opens
  cases h.symm.trans (next_fails_iff.2 (.inl ⟨rfl, opens⟩))

/-- **A quote that nothing closes is punctuation for a lenient reading.** -/
theorem next_lenient_quote {quote : Char} (hquote : quote ∈ ['"', '\''])
    (h : OpensLiteral quote c.rest) :
    c.next .lenient = .ok (some (⟨.punct, String.singleton quote⟩, c.skip 1)) := by
  obtain ⟨body, hrest, hopen⟩ := h
  have hpunct : (form (quote :: body)).1 = .punct := by
    rcases List.mem_pair.1 hquote with rfl | rfl
    · exact (Form.punct_doubleQuote_iff body).2 hopen
    · exact (Form.punct_quote_iff body).2 hopen
  have hform : form (quote :: body) = (.punct, 1) := Prod.ext hpunct (Form.punct_of_form hpunct)
  rw [next_lenient_eq_ok, front, hrest, hform, if_neg (List.cons_ne_nil _ _)]
  · rfl
  · rintro ⟨comment, hcomment, -⟩
    obtain ⟨rfl, -⟩ := List.cons.inj (hrest.symm.trans hcomment)
    exact absurd hquote (by decide)

theorem ReadsAll.lenient {ls : List (Lexeme × Location)} (h : c.ReadsAll [.strict] ls stop) :
    c.ReadsAll [.lenient] ls stop := by
  induction h with
  | refl c => exact .refl c
  | next mem next _ ih =>
    obtain rfl := List.mem_singleton.1 mem
    exact .next (List.mem_singleton_self _) (next_lenient_of_strict next) ih

/-- What is read from a cursor is what is read first, and what is read from where that leads. -/
theorem ReadsAll.lexemes_eq {ls : List (Lexeme × Location)} (h : c.ReadsAll [mode] ls stop) :
    c.lexemes mode = (ls ++ (stop.lexemes mode).1, (stop.lexemes mode).2) := by
  induction h with
  | refl => rfl
  | next mem next _ ih =>
    obtain rfl := List.mem_singleton.1 mem
    rw [lexemes_of_next next, ih, List.cons_append]

/-- **Where the two modes fail, and what they read alike.**  At every cursor a strict reading fails just
where what is left begins with a comment that nothing closes or with a quote that does not come again on
its line, each with its fault, and a lenient reading just at such a comment.  Such a quote the lenient
reading gives as punctuation.  What a strict reading reads the lenient one reads, too, and the lexemes up
to where the strict reading stops are the first of the lenient ones, which go on from there. -/
theorem faults_exactly (c : Cursor) :
    (∀ fault, c.next .strict = .error fault ↔
      (fault = .unterminatedBlockComment ∧ OpensComment c.rest) ∨
      (fault = .unterminatedString ∧ OpensLiteral '"' c.rest) ∨
      (fault = .unterminatedCharacter ∧ OpensLiteral '\'' c.rest)) ∧
    (∀ fault, c.next .lenient = .error fault ↔
      fault = .unterminatedBlockComment ∧ OpensComment c.rest) ∧
    (∀ quote ∈ ['"', '\''], OpensLiteral quote c.rest →
      c.next .lenient = .ok (some (⟨.punct, String.singleton quote⟩, c.skip 1))) ∧
    (∀ r, c.next .strict = .ok r → c.next .lenient = .ok r) ∧
    ∀ ls stop fault, c.lexemes .strict = (ls, stop, fault) → c.ReadsAll [.lenient] ls stop ∧
      c.lexemes .lenient = (ls ++ (stop.lexemes .lenient).1, (stop.lexemes .lenient).2) := by
  refine ⟨fun fault => ?_, fun _ => next_lenient_fails_iff, fun _ => next_lenient_quote,
    fun _ => next_lenient_of_strict, fun ls stop fault hstrict => ?_⟩
  · rw [next_fails_iff, and_iff_right rfl, and_iff_right rfl]
  · have reads : c.ReadsAll [.lenient] ls stop := by
      have reads := readsAll_lexemes .strict c
      rw [hstrict] at reads
      exact reads.lenient
    exact ⟨reads, reads.lexemes_eq⟩

/-- A quote that comes again only after a backslash. -/
theorem faults_exactly_apply :
    (ofString "\"a\\\" b\n").next .strict = .error .unterminatedString ∧
      (ofString "\"a\\\" b\n").next .lenient =
        .ok (some (⟨.punct, "\""⟩, ⟨['a', '\\', '"', ' ', 'b', '\n'], ⟨1, 1, 2⟩⟩)) := by
  have opens : OpensLiteral '"' (ofString "\"a\\\" b\n").rest := ⟨_, rfl, by decide⟩
  obtain ⟨strict, -, lenient, -⟩ := faults_exactly (ofString "\"a\\\" b\n")
  exact ⟨(strict _).2 (.inr (.inl ⟨rfl, opens⟩)), lenient '"' List.mem_cons_self opens⟩

end Lexeme.Cursor

end ShaderPass
