import ShaderPass.Proofs.Lexeme.Reading

/-!
# Proofs/Lexeme/Forms — the form of a text, seen from its first characters

    a…  identifier      0…  .0…  number      "…  quoted, or punctuation
    //…  line comment   /*…  comment, or punctuation that is a fault

Which form a text starts with is seen from its first characters (`form_identifier`, `form_digit`,
…), and how far it goes is measured by one function for each form.  What such a function measures
ends where a first part of the text does if it ends there in that part alone and does not go on with
the next character (`run_append`, `commentClose_append`, `quoteClose_append`, `numberTail_append`).
-/

namespace ShaderPass.Lexeme

open Form

/-! ## Forms by the first characters -/

namespace Form

/-- A line end starts with a line feed or a carriage return. -/
theorem newline_eq_zero {c : Char} (h : c ≠ '\r') (h' : c ≠ '\n') (text : List Char) :
    newline (c :: text) = 0 := by
  unfold newline
  split <;> simp_all

/-- White space starts with a space. -/
theorem whitespace_eq_zero {c : Char} (h : isSpace c = false) (text : List Char) :
    whitespace (c :: text) = 0 := by
  rw [whitespace, run, List.takeWhile_cons_of_neg (by simp [h])]
  rfl

/-- Comments start with a slash. -/
theorem lineComment_eq_zero {c : Char} (h : c ≠ '/') (text : List Char) :
    lineComment (c :: text) = 0 := by
  unfold lineComment
  split <;> simp_all

theorem blockComment_eq_zero {c : Char} (h : c ≠ '/') (text : List Char) :
    blockComment (c :: text) = 0 := by
  unfold blockComment
  split <;> simp_all

/-- A quoted text starts with its quote. -/
theorem quoted_eq_zero (quote : Char) {c : Char} (h : c ≠ quote) (text : List Char) :
    quoted quote (c :: text) = 0 := by rw [quoted, if_neg h]

/-- A number starts with a digit or a dot. -/
theorem number_eq_zero {c : Char} (h : c.isDigit = false) (h' : c ≠ '.') (text : List Char) :
    number (c :: text) = 0 := by
  unfold number
  split <;> simp_all

theorem identifier_eq_zero {c : Char} (h : isIdentifierStart c = false) (text : List Char) :
    identifier (c :: text) = 0 := by rw [identifier, h, if_neg Bool.false_ne_true]

/-- A text that starts with no white space and no comment. -/
theorem form_solid {c : Char} (hs : isSpace c = false) (hn : c ≠ '\n') {text : List Char}
    (hl : lineComment (c :: text) = 0) (hb : blockComment (c :: text) = 0) :
    form (c :: text) =
      if identifier (c :: text) ≠ 0 then (.identifier, identifier (c :: text))
      else if number (c :: text) ≠ 0 then (.number, number (c :: text))
      else if quoted '"' (c :: text) ≠ 0 then (.stringLiteral, quoted '"' (c :: text))
      else if quoted '\'' (c :: text) ≠ 0 then (.charLiteral, quoted '\'' (c :: text))
      else (.punct, 1) := by
  have hr : c ≠ '\r' := by
    rintro rfl
    exact absurd hs (by decide)
  rw [form_eq, newline_eq_zero hr hn, whitespace_eq_zero hs, hl, hb]
  simp

/-- Characters of which one class has only the one are different. -/
private theorem ne_of_class {p : Char → Bool} {c d : Char} (h : p c = true) (h' : p d = false) :
    c ≠ d := by
  rintro rfl
  exact Bool.false_ne_true (h'.symm.trans h)

private theorem not_space_of_class {p : Char → Bool} {c : Char} (h : p c = true)
    (h' : ∀ d, isSpace d = true → p d = false) : isSpace c = false := by
  cases hs : isSpace c with
  | false => rfl
  | true => exact absurd ((h' c hs).symm.trans h) Bool.false_ne_true

/-- A class of characters without the blank ones. -/
private theorem class_of_space {p : Char → Bool} (h : p ' ' = false) (h₁ : p '\t' = false)
    (h₂ : p '\r' = false) (h₃ : p '\x0b' = false) (h₄ : p '\x0c' = false) (d : Char)
    (hd : isSpace d = true) : p d = false := by
  simp only [isSpace, Bool.or_eq_true, beq_iff_eq] at hd
  rcases hd with (((rfl | rfl) | rfl) | rfl) | rfl <;> assumption

/-- A name goes on as long as the characters are parts of names. -/
theorem form_identifier {c : Char} (h : isIdentifierStart c = true) (text : List Char) :
    form (c :: text) = (.identifier, run isIdentifierPart text + 1) := by
  have hs := not_space_of_class h
    (class_of_space (by decide) (by decide) (by decide) (by decide) (by decide))
  have hslash : c ≠ '/' := ne_of_class h (by decide)
  rw [form_solid hs (ne_of_class h (by decide)) (lineComment_eq_zero hslash text)
    (blockComment_eq_zero hslash text), identifier, if_pos h, if_pos (Nat.succ_ne_zero _)]

/-- No digit starts a name. -/
theorem not_identifierStart_of_digit {c : Char} (h : c.isDigit = true) :
    isIdentifierStart c = false := by
  have hunderscore : c ≠ '_' := ne_of_class h (by decide)
  have hdigit : c.val ≤ 57 := of_decide_eq_true (Bool.and_eq_true_iff.1 h).2
  have hupper : ¬(65 ≤ c.val ∧ c.val ≤ 90) := by grind
  have hlower : ¬97 ≤ c.val := by grind
  show (decide (65 ≤ c.val ∧ c.val ≤ 90) || (decide (97 ≤ c.val) && decide (c.val ≤ 122)) ||
    c == '_') = false
  rw [decide_eq_false hupper, decide_eq_false hlower, beq_false_of_ne hunderscore]
  rfl

/-- A number goes on as long as its tail does. -/
theorem form_digit {c : Char} (h : c.isDigit = true) (text : List Char) :
    form (c :: text) = (.number, numberTail text + 1) := by
  have hs := not_space_of_class h
    (class_of_space (by decide) (by decide) (by decide) (by decide) (by decide))
  have hslash : c ≠ '/' := ne_of_class h (by decide)
  have hdot : c ≠ '.' := ne_of_class h (by decide)
  have hnumber : number (c :: text) = numberTail text + 1 := by
    unfold number
    split <;> simp_all
  rw [form_solid hs (ne_of_class h (by decide)) (lineComment_eq_zero hslash text)
    (blockComment_eq_zero hslash text), identifier_eq_zero (not_identifierStart_of_digit h),
    hnumber]
  simp

/-- A dot before a digit starts a number. -/
theorem form_dot_digit {d : Char} (h : d.isDigit = true) (text : List Char) :
    form ('.' :: d :: text) = (.number, numberTail text + 2) := by
  rw [form_solid (by decide) (by decide) (lineComment_eq_zero (by decide) _)
    (blockComment_eq_zero (by decide) _), identifier_eq_zero (by decide), number, if_pos h]
  simp

/-- A dot that no digit follows is punctuation. -/
theorem form_dot {text : List Char} (h : text.head?.any (·.isDigit) = false) :
    form ('.' :: text) = (.punct, 1) := by
  have hnumber : number ('.' :: text) = 0 := by
    cases text with
    | nil => rfl
    | cons d text => rw [number, show d.isDigit = false from h, if_neg Bool.false_ne_true]
  rw [form_solid (by decide) (by decide) (lineComment_eq_zero (by decide) _)
    (blockComment_eq_zero (by decide) _), identifier_eq_zero (by decide), hnumber,
    quoted_eq_zero _ (by decide), quoted_eq_zero _ (by decide)]
  simp

/-- A comment after two slashes goes up to the line feed, and does not take it. -/
theorem form_lineComment (text : List Char) :
    form ('/' :: '/' :: text) = (.lineComment, 2 + run (· != '\n') text) := by
  rw [form_eq, newline_eq_zero (by decide) (by decide), whitespace_eq_zero (by decide), lineComment]
  simp

/-- A comment in stars goes up to its close, if it has one. -/
theorem form_blockComment {text : List Char} {n : Nat} (h : commentClose text = some n) :
    form ('/' :: '*' :: text) = (.blockComment, n + 2) := by
  have hline : lineComment ('/' :: '*' :: text) = 0 := rfl
  have hblock : blockComment ('/' :: '*' :: text) = n + 2 := by
    rw [blockComment, h]
  rw [form_eq, newline_eq_zero (by decide) (by decide), whitespace_eq_zero (by decide), hline,
    hblock]
  simp

/-- A slash that begins no comment is punctuation. -/
theorem form_slash {text : List Char} (hl : lineComment ('/' :: text) = 0)
    (hb : blockComment ('/' :: text) = 0) : form ('/' :: text) = (.punct, 1) := by
  rw [form_solid (by decide) (by decide) hl hb, identifier_eq_zero (by decide),
    number_eq_zero (by decide) (by decide), quoted_eq_zero _ (by decide),
    quoted_eq_zero _ (by decide)]
  simp

/-- A double quote starts a text up to the next one, and is punctuation if none is on the line. -/
theorem form_doubleQuote (text : List Char) : form ('"' :: text) =
    if quoted '"' ('"' :: text) ≠ 0 then (.stringLiteral, quoted '"' ('"' :: text))
    else (.punct, 1) := by
  rw [form_solid (by decide) (by decide) (lineComment_eq_zero (by decide) _)
    (blockComment_eq_zero (by decide) _), identifier_eq_zero (by decide),
    number_eq_zero (by decide) (by decide), quoted_eq_zero '\'' (by decide)]
  simp

theorem form_quote (text : List Char) : form ('\'' :: text) =
    if quoted '\'' ('\'' :: text) ≠ 0 then (.charLiteral, quoted '\'' ('\'' :: text))
    else (.punct, 1) := by
  rw [form_solid (by decide) (by decide) (lineComment_eq_zero (by decide) _)
    (blockComment_eq_zero (by decide) _), identifier_eq_zero (by decide),
    number_eq_zero (by decide) (by decide), quoted_eq_zero '"' (by decide)]
  simp

/-- A character that begins no other form is punctuation. -/
theorem form_punct {c : Char} (hs : isSpace c = false) (hn : c ≠ '\n') (hslash : c ≠ '/')
    (hi : isIdentifierStart c = false) (hd : c.isDigit = false) (hdot : c ≠ '.') (hq : c ≠ '"')
    (hq' : c ≠ '\'') (text : List Char) : form (c :: text) = (.punct, 1) := by
  rw [form_solid hs hn (lineComment_eq_zero hslash text) (blockComment_eq_zero hslash text),
    identifier_eq_zero hi, number_eq_zero hd hdot, quoted_eq_zero _ hq, quoted_eq_zero _ hq']
  simp

theorem form_newline (text : List Char) : form ('\n' :: text) = (.newline, 1) := by
  rw [form_eq]
  rfl

theorem form_crlf (text : List Char) : form ('\r' :: '\n' :: text) = (.newline, 2) := by
  rw [form_eq]
  rfl

/-- A space that starts no line end goes on as long as there are spaces. -/
theorem form_space {c : Char} {text : List Char} (h : isSpace c = true)
    (hn : newline (c :: text) = 0) :
    form (c :: text) = (.whitespace, run isSpace text + 1) := by
  have hw : whitespace (c :: text) = run isSpace text + 1 := by
    rw [whitespace, run, List.takeWhile_cons_of_pos h]
    rfl
  rw [form_eq, hn, hw]
  simp

/-! ## Forms that end where a first part of the text does -/

variable {u rest : List Char}

/-- A run is empty if the first character does not belong to it. -/
theorem run_eq_zero (p : Char → Bool) (rest : List Char) :
    run p rest = 0 ↔ rest.head?.any p = false := by
  cases rest with
  | nil => simp [run]
  | cons c rest =>
    cases hc : p c <;> simp [run, hc]

/-- **A run ends with a first part** if all of the part belongs to it and the next character does
not. -/
theorem run_append (p : Char → Bool) :
    run p (u ++ rest) = u.length ↔ run p u = u.length ∧ rest.head?.any p = false := by
  induction u with
  | nil => simpa [run] using run_eq_zero p rest
  | cons c u ih =>
    cases hc : p c with
    | false => simp [run, hc]
    | true =>
      have hrun : ∀ text, run p (c :: text) = run p text + 1 := fun text => by
        rw [run, List.takeWhile_cons_of_pos hc]
        rfl
      rw [List.cons_append, hrun, hrun, List.length_cons, Nat.add_right_cancel_iff,
        Nat.add_right_cancel_iff, ih]

/-- A comment is closed here, or where the text behind its first character closes it. -/
theorem commentClose_cons (c : Char) (text : List Char) : commentClose (c :: text) =
    if c = '*' ∧ text.head? = some '/' then some 2 else (commentClose text).map (· + 1) := by
  split
  next h =>
    obtain ⟨rfl, h⟩ := h
    obtain ⟨text, rfl⟩ := List.head?_eq_some_iff.1 h
    rfl
  next h =>
    rw [commentClose]
    rintro text rfl rfl
    exact h ⟨rfl, rfl⟩

theorem commentClose_ne_zero (text : List Char) : commentClose text ≠ some 0 := by
  cases text with
  | nil => simp [commentClose]
  | cons c text =>
    rw [commentClose_cons]
    split <;> simp

/-- **A comment ends with a first part** just if it does in that part alone. -/
theorem commentClose_append :
    commentClose (u ++ rest) = some u.length ↔ commentClose u = some u.length := by
  induction u with
  | nil => simp [commentClose_ne_zero]
  | cons c u ih =>
    rw [List.cons_append, commentClose_cons, commentClose_cons]
    cases u with
    | nil =>
      have hrest : (commentClose rest).map (· + 1) ≠ some 1 := by
        simp [commentClose_ne_zero]
      simp only [List.nil_append, List.length_singleton]
      split <;> simp_all [commentClose]
    | cons d u =>
      have hmap : ∀ o : Option Nat, o.map (· + 1) = some (c :: d :: u).length ↔
          o = some (d :: u).length := fun o => by cases o <;> simp
      rw [List.cons_append, List.head?_cons, List.head?_cons, ← List.cons_append]
      split
      next => rfl
      next => rw [hmap, hmap, ih]

theorem quoteClose_ne_zero (quote : Char) (text : List Char) : quoteClose quote text ≠ some 0 := by
  fun_cases quoteClose quote text <;> simp

/-- **A quoted text ends with a first part** just if it does in that part alone. -/
theorem quoteClose_append {quote : Char} (hq : quote ≠ '\\') :
    quoteClose quote (u ++ rest) = some u.length ↔ quoteClose quote u = some u.length := by
  fun_induction quoteClose quote u with
  | case1 => simp [quoteClose_ne_zero]
  | case2 c text ih =>
    simp only [List.cons_append, quoteClose, List.length_cons]
    cases h : quoteClose quote (text ++ rest) <;> cases h' : quoteClose quote text <;> simp_all
  | case3 text _ =>
    rw [List.cons_append, quoteClose, if_pos rfl]
    exact fun _ _ he => absurd he hq
  | case4 c text hesc hne h =>
    rcases h with rfl | rfl
    · cases text with
      | nil =>
        cases rest with
        | nil => simp [quoteClose, hne]
        | cons d rest =>
          simp only [List.cons_append, List.nil_append, quoteClose, List.length_singleton]
          cases quoteClose quote rest <;> simp
      | cons d text => exact absurd rfl (fun he => hesc d text rfl he)
    · rw [List.cons_append, quoteClose, if_neg hne, if_pos (.inr rfl)]
      exact fun _ _ he => absurd he (by decide)
  | case5 c text hesc hne h ih =>
    rw [List.cons_append, quoteClose, if_neg hne, if_neg h, List.length_cons]
    · cases h : quoteClose quote (text ++ rest) <;> cases h' : quoteClose quote text <;> simp_all
    · exact fun _ _ he => absurd (Or.inl he) h

/-- Whether the last of some characters is an exponent letter, and the next one a sign that belongs
to it. -/
def endsInExponent (u : List Char) (c : Char) : Bool := u.getLast?.any (isExponentSign · c)

/-- The letter of an exponent belongs to a number without its sign, too. -/
theorem isNumberPart_of_exponent {c d : Char} (h : isExponentSign c d = true) :
    isNumberPart c = true := by
  simp only [isExponentSign, Bool.and_eq_true, Bool.or_eq_true, beq_iff_eq] at h
  rcases h.1 with rfl | rfl <;> decide

theorem not_exponent_of_sign {c d e : Char} (h : isExponentSign c d = true) :
    isExponentSign d e = false := by
  simp only [isExponentSign, Bool.and_eq_true, Bool.or_eq_true, beq_iff_eq] at h
  rcases h.2 with rfl | rfl <;> rfl

/-- The tail of a number is empty if the first character does not belong to it. -/
theorem numberTail_eq_zero (rest : List Char) :
    numberTail rest = 0 ↔ rest.head?.any isNumberPart = false := by
  fun_cases numberTail rest with
  | case4 c d text h => simp [isNumberPart_of_exponent h]
  | _ => simp_all

/-- **The tail of a number ends with a first part** if it does in that part alone, and the next
character neither belongs to a number nor is the sign of an exponent that the part ends in. -/
theorem numberTail_append (u rest : List Char) :
    numberTail (u ++ rest) = u.length ↔ numberTail u = u.length ∧
      rest.head?.any (fun c => isNumberPart c || endsInExponent u c) = false := by
  fun_induction numberTail u with
  | case1 => simpa [endsInExponent] using numberTail_eq_zero rest
  | case2 c h =>
    cases rest with
    | nil => simp [numberTail, h]
    | cons d rest =>
      have hzero := numberTail_eq_zero (d :: rest)
      cases he : isExponentSign c d with
      | true => simp [numberTail, endsInExponent, he]
      | false =>
        simp only [List.head?_cons, Option.any_some] at hzero
        simp [numberTail, endsInExponent, he, h, hzero]
  | case3 c h =>
    cases rest with
    | nil => simp [numberTail, h]
    | cons d rest =>
      have he : isExponentSign c d = false := by
        cases he : isExponentSign c d with
        | false => rfl
        | true => exact absurd (isNumberPart_of_exponent he) h
      simp [numberTail, he, h]
  | case4 c d text h ih =>
    have hlast : ∀ e, endsInExponent (c :: d :: text) e = endsInExponent text e := fun e => by
      rw [endsInExponent, endsInExponent, List.getLast?_cons_cons]
      cases text with
      | nil => exact not_exponent_of_sign h
      | cons x text => rw [List.getLast?_cons_cons]
    simp [numberTail, h, hlast, ih]
  | case5 c d text h hc ih =>
    have hlast : ∀ e, endsInExponent (c :: d :: text) e = endsInExponent (d :: text) e := fun e =>
      by rw [endsInExponent, endsInExponent, List.getLast?_cons_cons]
    have ih' := ih
    simp only [List.cons_append, List.length_cons] at ih'
    simp [numberTail, h, hc, hlast, ih']
  | case6 c d text h hc => simp [numberTail, h, hc]

/-- What ends in an exponent is seen behind a character that begins none. -/
theorem endsInExponent_cons {c : Char} (h : ∀ d, isExponentSign c d = false) (u : List Char) :
    endsInExponent (c :: u) = endsInExponent u := by
  funext d
  rw [endsInExponent, endsInExponent]
  cases u with
  | nil => exact h d
  | cons e u => rw [List.getLast?_cons_cons]

theorem not_exponent_of_digit {c : Char} (h : c.isDigit = true) (d : Char) :
    isExponentSign c d = false := by
  have he : c ≠ 'e' := ne_of_class h (by decide)
  have he' : c ≠ 'E' := ne_of_class h (by decide)
  simp [isExponentSign, he, he']

end Form

end ShaderPass.Lexeme
