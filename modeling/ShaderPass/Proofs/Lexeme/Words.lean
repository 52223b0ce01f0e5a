import ShaderPass.Proofs.Lexeme.Apart

/-!
# Proofs/Lexeme/Words — what names and numbers run together to

    put together   a  5.e  +3  1e  -2  .x        read again   a5  .  e  +  31e-2.x

Names, numbers, dots and signs that stand one right after the other do not come back as they were.
But names, numbers, dots and signs are all that comes back (`next_of_wordPart`): what they are made
of begins no comment, no literal and no blank.
-/

namespace ShaderPass.Lexeme

namespace Form

/-- The characters that names and numbers are made of, signs included. -/
def isWordPart (c : Char) : Bool := isNumberPart c || c == '+' || c == '-'

variable {c d : Char} {text : List Char}

theorem isWordPart_of_numberPart (h : isNumberPart c = true) : isWordPart c = true := by
  rw [isWordPart, h]
  rfl

theorem isWordPart_of_identifierPart (h : isIdentifierPart c = true) : isWordPart c = true := by
  refine isWordPart_of_numberPart ?_
  rw [isIdentifierPart, Bool.or_eq_true] at h
  rw [isNumberPart, Bool.or_eq_true, Bool.or_eq_true]
  exact h.imp_left .inl

theorem isWordPart_of_identifierStart (h : isIdentifierStart c = true) : isWordPart c = true := by
  refine isWordPart_of_identifierPart ?_
  rw [isIdentifierStart, Bool.or_eq_true] at h
  rw [isIdentifierPart, Bool.or_eq_true, Char.isAlphanum, Bool.or_eq_true]
  exact h.imp_left .inl

theorem isWordPart_of_digit (h : c.isDigit = true) : isWordPart c = true := by
  refine isWordPart_of_numberPart ?_
  rw [isNumberPart, Char.isAlphanum, h, Bool.or_true]
  rfl

theorem isWordPart_of_exponentSign (h : isExponentSign c d = true) : isWordPart d = true := by
  rw [isExponentSign, Bool.and_eq_true, Bool.or_eq_true (d == '+')] at h
  rw [isWordPart, Bool.or_assoc, Bool.or_eq_true, Bool.or_eq_true (d == '+')]
  exact .inr h.2

theorem isWordPart_of_mem_run {p : Char → Bool} (hp : ∀ c, p c = true → isWordPart c = true) :
    ∀ x ∈ text.take (run p text), isWordPart x = true := by
  intro x hx
  rw [run, ← List.prefix_iff_eq_take.1 (List.takeWhile_prefix p)] at hx
  exact hp x (List.all_eq_true.1 List.all_takeWhile x hx)

theorem isWordPart_of_mem_numberTail : ∀ x ∈ text.take (numberTail text), isWordPart x = true := by
  fun_induction numberTail text with
  | case1 => exact List.forall_mem_nil _
  | case2 c h => exact List.forall_mem_singleton.2 (isWordPart_of_numberPart h)
  | case3 => exact List.forall_mem_nil _
  | case4 c d text h ih =>
    exact List.forall_mem_cons.2 ⟨isWordPart_of_numberPart (isNumberPart_of_exponent h),
      List.forall_mem_cons.2 ⟨isWordPart_of_exponentSign h, ih⟩⟩
  | case5 c d text _ h ih => exact List.forall_mem_cons.2 ⟨isWordPart_of_numberPart h, ih⟩
  | case6 => exact List.forall_mem_nil _

/-- Only a number has the form of one. -/
theorem number_of_form (h : (form text).1 = .number) :
    number text ≠ 0 ∧ (form text).2 = number text := by
  rw [form_eq] at h ⊢
  repeat' split at h
  all_goals simp_all

/-- Those that begin neither a name nor a number with a digit are the dot and the signs. -/
theorem dot_or_sign (hc : isWordPart c = true) (hi : ¬isIdentifierStart c = true)
    (hd : ¬c.isDigit = true) : c = '.' ∨ c = '+' ∨ c = '-' := by
  simp only [isWordPart, isNumberPart, Char.isAlphanum, isIdentifierStart, Bool.or_eq_true,
    beq_iff_eq, not_or] at hc hi
  obtain ((((h | h) | h) | h) | h) | h := hc
  · exact absurd h hi.1
  · exact absurd h hd
  · exact .inl h
  · exact absurd h hi.2
  · exact .inr (.inl h)
  · exact .inr (.inr h)

/-- Whether a kind is that of a name, a number or a punctuation character. -/
def IsWordKind (k : Kind) : Prop := k = .identifier ∨ k = .number ∨ k = .punct

/-- A text that begins with such a character begins with a name, a number, a dot or a sign. -/
theorem form_wordPart (hc : isWordPart c = true) (text : List Char) : IsWordKind (form (c :: text)).1 ∧
    ∀ x ∈ (c :: text).take (form (c :: text)).2, isWordPart x = true := by
  by_cases hi : isIdentifierStart c = true
  · rw [form_identifier hi]
    exact ⟨.inl rfl, List.forall_mem_cons.2 ⟨hc, isWordPart_of_mem_run fun _ =>
      isWordPart_of_identifierPart⟩⟩
  by_cases hd : c.isDigit = true
  · rw [form_digit hd]
    exact ⟨.inr (.inl rfl), List.forall_mem_cons.2 ⟨hc, isWordPart_of_mem_numberTail⟩⟩
  have single : form (c :: text) = (.punct, 1) → IsWordKind (form (c :: text)).1 ∧
      ∀ x ∈ (c :: text).take (form (c :: text)).2, isWordPart x = true := fun h => by
    rw [h]
    exact ⟨.inr (.inr rfl), List.forall_mem_singleton.2 hc⟩
  obtain rfl | rfl | rfl := dot_or_sign hc hi hd
  · by_cases hdigit : text.head?.any (·.isDigit) = true
    · obtain ⟨d, hhead, hdigit⟩ := (Option.any_eq_true _ _).1 hdigit
      obtain ⟨text, rfl⟩ := List.head?_eq_some_iff.1 hhead
      rw [form_dot_digit hdigit]
      exact ⟨.inr (.inl rfl), List.forall_mem_cons.2 ⟨hc, List.forall_mem_cons.2
        ⟨isWordPart_of_digit hdigit, isWordPart_of_mem_numberTail⟩⟩⟩
    · exact single (form_dot (Bool.eq_false_iff.2 hdigit))
  all_goals
    exact single (form_punct (by decide) (by decide) (by decide) (by decide) (by decide) (by decide)
      (by decide) (by decide) text)

end Form

variable {c : Cursor} {l : Lexeme}

theorem fault?_wordPart {x : Char} (hx : Form.isWordPart x = true) (text : List Char) :
    fault? .strict (x :: text) = none := by
  unfold fault?
  split
  next he => exact absurd ((List.cons.inj he).1 ▸ hx) (by decide)
  next he => exact absurd ((List.cons.inj he).1 ▸ hx) (by decide)
  next he => exact absurd ((List.cons.inj he).1 ▸ hx) (by decide)
  next => rfl

/-- **What is read where a name, a number, a dot or a sign goes on is one of these.** -/
theorem next_of_wordPart {x : Char} {text : List Char} (hc : c.rest = x :: text)
    (hx : Form.isWordPart x = true) : ∃ l c', c.next .strict = .ok (some (l, c')) ∧
      Form.IsWordKind l.kind ∧ ∀ y ∈ l.text.toList, Form.isWordPart y = true := by
  obtain ⟨hkind, hpart⟩ := Form.form_wordPart hx text
  refine ⟨⟨(Form.form c.rest).1, String.ofList (c.rest.take (Form.form c.rest).2)⟩,
    c.skip (Form.form c.rest).2, ?_, ?_⟩
  · rw [Cursor.next, if_neg (by simp [hc])]
    dsimp only
    have hfault : fault? .strict c.rest = none := hc ▸ fault?_wordPart hx text
    rw [hfault, ite_self]
  · rw [hc, String.toList_ofList]
    exact ⟨hkind, hpart⟩

/-- A whole lexeme that begins as a name, a number, a dot or a sign does is made of such characters. -/
theorem wordPart_of_isWhole (hl : l.IsWhole) {x : Char} {text : List Char}
    (hx : l.text.toList = x :: text) (hpart : Form.isWordPart x = true) :
    Form.IsWordKind l.kind ∧ ∀ y ∈ l.text.toList, Form.isWordPart y = true := by
  obtain ⟨-, hform, -⟩ := hl
  have hword := Form.form_wordPart hpart text
  rwa [← hx, hform, List.take_length] at hword

/-- A lexeme that begins with another character is no name and no number. -/
theorem not_name_of_isWhole (hl : l.IsWhole) {x : Char} {text : List Char}
    (hx : l.text.toList = x :: text) (hpart : Form.isWordPart x = false) :
    l.kind ≠ .identifier ∧ l.kind ≠ .number := by
  have no : ∀ {p : Char → Bool}, (∀ c, p c = true → Form.isWordPart c = true) → p x = false :=
    fun hp => Bool.eq_false_iff.2 fun h => Bool.false_ne_true (hpart.symm.trans (hp x h))
  obtain ⟨-, hform, -⟩ := hl
  rw [hx] at hform
  constructor
  · intro hk
    refine (Form.identifier_of_form (by rw [hform, hk])).1 (Form.identifier_eq_zero (no ?_) text)
    exact fun _ => Form.isWordPart_of_identifierStart
  · intro hk
    have hdot : x ≠ '.' := by
      rintro rfl
      exact absurd hpart (by decide)
    refine (Form.number_of_form (by rw [hform, hk])).1 (Form.number_eq_zero (no ?_) hdot text)
    exact fun _ => Form.isWordPart_of_digit

end ShaderPass.Lexeme
