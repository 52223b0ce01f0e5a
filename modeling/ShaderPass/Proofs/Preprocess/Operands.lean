import Mathlib
import ShaderPass.Proofs.Condition.Parse
import ShaderPass.Proofs.Lexeme.Rescan
import ShaderPass.Proofs.Lexeme.Words
import ShaderPass.Proofs.Macro.Equations
import ShaderPass.Proofs.Macro.Lexemes
import ShaderPass.Proofs.Outcome
import ShaderPass.Preprocess.Condition

/-!
# Proofs/Preprocess/Operands — the expression that the tokens of a condition write

    defined(X)1 == 11     replaced   1 1 == 11     written out   11 == 11

A condition is written out as text before it is read as an expression.  Names and numbers are what
its **operands** are written from, and nothing comes between two tokens that touch; so operands that
touch are read as one number.  Signs within numbers apart, that is all there is to it: the text
writes an expression exactly if the tokens do when operands that touch are taken together
(`writes_expressionText_iff`), operands that do not touch are never taken together
(`between_eq_nil`), and where none touch each is a number of its own (`oneOperand_of_touching`).

Nothing keeps operands from touching: the one or zero in the place of `defined(X)` touches a number
right after it (`operands_glued`).
-/

namespace ShaderPass.Preprocess

open Condition (Spelling Writes Spelled Value IsLiteral textSpelling isSpace)
open Lexeme (IsWhole)
open Lexeme.Form (isNumberPart)
open Macro (Token Table Origin)

variable {t : Token} {ts us : List Token}

/-- Whether a token of a condition is an operand. -/
def IsOperand (t : Token) : Prop := t.kind = .identifier ∨ t.kind = .number

/-- Whether a token of a condition only separates others. -/
def IsSeparator (t : Token) : Prop := t.kind = .newline ∨ t.isTrivia = true

instance : DecidablePred IsOperand := fun t =>
  inferInstanceAs (Decidable (t.kind = .identifier ∨ t.kind = .number))

instance : DecidablePred IsSeparator := fun t =>
  inferInstanceAs (Decidable (t.kind = .newline ∨ t.isTrivia = true))

/-- The characters that a token of a condition puts into the text of the expression. -/
def tokenChars (t : Token) : List Char := (operandText t).toList

theorem toList_expressionText (ts : List Token) :
    (expressionText ts).toList = ts.flatMap tokenChars := by
  rw [expressionText, String.toList_join, List.flatMap_map]
  rfl

theorem tokenChars_identifier (h : t.kind = .identifier) :
    tokenChars t = [if t.text = "true" then '1' else '0'] := by
  rw [tokenChars, operandText, if_pos h]
  split <;> rfl

theorem tokenChars_separator (h : IsSeparator t) : tokenChars t = [' '] := by
  have hname : t.kind ≠ .identifier := by
    intro hk
    obtain h | h := h
    · rw [hk] at h
      cases h
    · rw [Lexeme.isTrivia, hk] at h
      cases h
  rw [tokenChars, operandText, if_neg hname]
  exact congrArg String.toList (if_pos h)

theorem tokenChars_other (hname : t.kind ≠ .identifier) (h : ¬ IsSeparator t) :
    tokenChars t = t.text.toList := by
  rw [tokenChars, operandText, if_neg hname]
  exact congrArg String.toList (if_neg h)

/-! ## What whole tokens put into the text -/

/-- Whether a token is no number with a sign in it, as `1e-5` is one. -/
def Unsigned (t : Token) : Prop := t.kind = .number → '+' ∉ t.text.toList ∧ '-' ∉ t.text.toList

instance : DecidablePred Unsigned := fun t =>
  inferInstanceAs (Decidable (t.kind = .number → '+' ∉ t.text.toList ∧ '-' ∉ t.text.toList))

/-- What the characters are that a token puts into the text of an expression. -/
inductive Shape (t : Token) : Prop
  | separator (separates : IsSeparator t) (chars : tokenChars t = [' '])
  | operand (operand : IsOperand t) (nonempty : tokenChars t ≠ [])
      (parts : ∀ c ∈ tokenChars t, isNumberPart c = true)
  | punct {c : Char} (kind : t.kind = .punct) (chars : tokenChars t = [c])
      (other : c.isAlphanum = false) (solid : isSpace c = false)
  | quoted {c : Char} {cs : List Char} (kind : t.kind = .stringLiteral ∨ t.kind = .charLiteral)
      (chars : tokenChars t = c :: cs) (quote : c = '"' ∨ c = '\'')

theorem wordPart_of_number {c : Char} {cs : List Char}
    (h : (Lexeme.Form.form (c :: cs)).1 = .number) : Lexeme.Form.isWordPart c = true := by
  obtain ⟨hnumber, -⟩ := Lexeme.Form.number_of_form h
  unfold Lexeme.Form.number at hnumber
  split at hnumber
  next heq =>
    obtain ⟨rfl, -⟩ := List.cons.inj heq
    rfl
  next heq =>
    obtain ⟨rfl, rfl⟩ := List.cons.inj heq
    split at hnumber
    next hdigit => exact Lexeme.Form.isWordPart_of_digit hdigit
    next => exact absurd rfl hnumber
  next heq => cases heq

theorem quote_of_form {text : List Char} {k : Kind} {n : Nat} (h : Lexeme.Form.form text = (k, n))
    (hk : k = .stringLiteral ∨ k = .charLiteral) :
    ∃ c cs, text = c :: cs ∧ (c = '"' ∨ c = '\'') := by
  have hquoted : Lexeme.Form.quoted '"' text ≠ 0 ∨ Lexeme.Form.quoted '\'' text ≠ 0 := by
    have hkind : (Lexeme.Form.form text).1 = .stringLiteral ∨
        (Lexeme.Form.form text).1 = .charLiteral := by rwa [h]
    clear h
    rw [Lexeme.Form.form_eq] at hkind
    repeat' split at hkind
    all_goals simp_all
  have hquote (quote : Char) (hne : Lexeme.Form.quoted quote text ≠ 0) :
      ∃ cs, text = quote :: cs := by
    unfold Lexeme.Form.quoted at hne
    split at hne
    next c cs =>
      split at hne
      next hc => exact ⟨cs, by rw [hc]⟩
      next => exact absurd rfl hne
    next => exact absurd rfl hne
  obtain hne | hne := hquoted
  · obtain ⟨cs, rfl⟩ := hquote '"' hne
    exact ⟨_, cs, rfl, .inl rfl⟩
  · obtain ⟨cs, rfl⟩ := hquote '\'' hne
    exact ⟨_, cs, rfl, .inr rfl⟩

/-- A character that is punctuation on its own is no letter, no digit and no blank. -/
theorem punct_single {c : Char} (h : Lexeme.Form.form [c] = (.punct, 1)) :
    c.isAlphanum = false ∧ isSpace c = false := by
  constructor
  · refine Bool.eq_false_iff.2 fun hc => ?_
    rw [Char.isAlphanum, Bool.or_eq_true] at hc
    obtain hc | hc := hc
    · rw [Lexeme.Form.form_identifier (by rw [Lexeme.Form.isIdentifierStart, hc]; rfl)] at h
      cases h
    · rw [Lexeme.Form.form_digit hc] at h
      cases h
  · refine Bool.eq_false_iff.2 fun hc => ?_
    simp only [isSpace, Bool.or_eq_true, beq_iff_eq] at hc
    obtain ((rfl | rfl) | rfl) | rfl := hc <;> cases h

/-- A number without signs is made of letters, digits, dots and underscores. -/
theorem numberPart_of_unsigned {text : List Char}
    (h : Lexeme.Form.form text = (.number, text.length)) (hplus : '+' ∉ text)
    (hminus : '-' ∉ text) : ∀ x ∈ text, isNumberPart x = true := by
  cases text with
  | nil => exact List.forall_mem_nil _
  | cons c cs =>
    have hwords := (Lexeme.Form.form_wordPart (wordPart_of_number (congrArg Prod.fst h)) cs).2
    rw [h, List.take_length] at hwords
    intro x hx
    have hword := hwords x hx
    simp only [Lexeme.Form.isWordPart, Bool.or_eq_true, beq_iff_eq] at hword
    obtain (hword | rfl) | rfl := hword
    · exact hword
    · exact absurd hx hplus
    · exact absurd hx hminus

/-- **Every whole token has such a shape.** -/
theorem shape_of_isWhole (h : t.toLexeme.IsWhole) (hsign : Unsigned t) : Shape t := by
  obtain ⟨hne, hform, -⟩ := h
  by_cases hseparates : IsSeparator t
  · exact .separator hseparates (tokenChars_separator hseparates)
  by_cases hname : t.kind = .identifier
  · refine .operand (.inl hname) ?_ ?_
    all_goals rw [tokenChars_identifier hname]
    · exact List.cons_ne_nil _ _
    · split <;> exact List.forall_mem_singleton.2 rfl
  have hchars := tokenChars_other hname hseparates
  cases hk : t.kind with
  | newline | whitespace | lineComment | blockComment =>
    exact absurd (by simp [IsSeparator, Lexeme.isTrivia, hk, Kind.isTrivia]) hseparates
  | identifier => exact absurd hk hname
  | number =>
    rw [hk] at hform
    refine .operand (.inr hk) (by rwa [hchars]) ?_
    rw [hchars]
    exact numberPart_of_unsigned hform (hsign hk).1 (hsign hk).2
  | stringLiteral | charLiteral =>
    rw [hk] at hform
    obtain ⟨c, cs, hcs, hquote⟩ := quote_of_form hform (by decide)
    exact .quoted (by simp [hk]) (hchars.trans hcs) hquote
  | punct =>
    rw [hk] at hform
    have hone := Lexeme.Form.punct_of_form (congrArg Prod.fst hform)
    rw [hform] at hone
    obtain ⟨c, hc⟩ := List.length_eq_one_iff.1 hone
    rw [hc] at hform
    obtain ⟨hother, hsolid⟩ := punct_single hform
    exact .punct hk (hchars.trans hc) hother hsolid

theorem not_numberPart_of_mem_text {s : Condition.Symbol} :
    ∀ c ∈ s.text.toList, isNumberPart c = false ∧ c ∉ [' ', '"', '\''] := by
  have hall : (s.text.toList.all fun c => isNumberPart c = false ∧ c ∉ [' ', '"', '\'']) = true := by
    cases s <;> decide
  exact fun c hc => of_decide_eq_true (List.all_eq_true.1 hall c hc)

namespace Shape

variable {c : Char} {cs rest : List Char}

theorem ne_nil (ht : Shape t) : tokenChars t ≠ [] := by
  cases ht with
  | operand _ hne => exact hne
  | separator _ hchars | punct _ hchars | quoted _ hchars => simp [hchars]

/-- A token that begins with a blank is a separator. -/
theorem separator_of_space (ht : Shape t) (h : tokenChars t ++ rest = c :: cs)
    (hc : isSpace c = true) : IsSeparator t ∧ rest = cs := by
  cases ht with
  | separator hseparates hchars =>
    rw [hchars] at h
    exact ⟨hseparates, (List.cons.inj h).2⟩
  | operand _ hne hparts =>
    obtain ⟨x, xs, hchars⟩ := List.exists_cons_of_ne_nil hne
    rw [hchars] at h
    obtain ⟨rfl, -⟩ := List.cons.inj h
    have hpart := hparts x (by rw [hchars]; exact List.mem_cons_self)
    simp only [isSpace, Bool.or_eq_true, beq_iff_eq] at hc
    obtain ((rfl | rfl) | rfl) | rfl := hc <;> cases hpart
  | punct _ hchars _ hsolid =>
    rw [hchars] at h
    obtain ⟨rfl, -⟩ := List.cons.inj h
    rw [hc] at hsolid
    cases hsolid
  | quoted _ hchars hquote =>
    rw [hchars] at h
    obtain ⟨rfl, -⟩ := List.cons.inj h
    obtain rfl | rfl := hquote <;> cases hc

/-- A token that begins with a letter or a digit is an operand. -/
theorem operand_of_isAlphanum (ht : Shape t) (h : tokenChars t ++ rest = c :: cs)
    (hc : c.isAlphanum = true) : IsOperand t ∧ ∀ x ∈ tokenChars t, isNumberPart x = true := by
  cases ht with
  | operand hoperand _ hparts => exact ⟨hoperand, hparts⟩
  | separator _ hchars =>
    rw [hchars] at h
    obtain ⟨rfl, -⟩ := List.cons.inj h
    cases hc
  | punct _ hchars hother =>
    rw [hchars] at h
    obtain ⟨rfl, -⟩ := List.cons.inj h
    rw [hc] at hother
    cases hother
  | quoted _ hchars hquote =>
    rw [hchars] at h
    obtain ⟨rfl, -⟩ := List.cons.inj h
    obtain rfl | rfl := hquote <;> cases hc

/-- A token that begins as a symbol does is punctuation. -/
theorem punct_of_mem_text {s : Condition.Symbol} (ht : Shape t)
    (h : tokenChars t ++ rest = c :: cs) (hc : c ∈ s.text.toList) :
    t.kind = .punct ∧ tokenChars t = [c] := by
  obtain ⟨hpart, hother⟩ := not_numberPart_of_mem_text c hc
  cases ht with
  | punct hkind hchars =>
    rw [hchars] at h
    obtain ⟨rfl, -⟩ := List.cons.inj h
    exact ⟨hkind, hchars⟩
  | separator _ hchars =>
    rw [hchars] at h
    obtain ⟨rfl, -⟩ := List.cons.inj h
    exact absurd hother (by decide)
  | operand _ hne hparts =>
    obtain ⟨x, xs, hchars⟩ := List.exists_cons_of_ne_nil hne
    rw [hchars] at h
    obtain ⟨rfl, -⟩ := List.cons.inj h
    rw [hparts x (by rw [hchars]; exact List.mem_cons_self)] at hpart
    cases hpart
  | quoted _ hchars hquote =>
    rw [hchars] at h
    obtain ⟨rfl, -⟩ := List.cons.inj h
    obtain rfl | rfl := hquote <;> exact absurd hother (by decide)

end Shape

/-! ## Runs of tokens -/

/-- What begins with letters and digits, up to something else, begins with operands. -/
theorem exists_operands {as bs : List Char} (hus : ∀ t ∈ us, Shape t)
    (h : us.flatMap tokenChars = as ++ bs) (has : ∀ c ∈ as, c.isAlphanum = true)
    (hbs : ∀ c ∈ bs.head?, isNumberPart c = false) :
    ∃ vs ws, us = vs ++ ws ∧ (∀ t ∈ vs, IsOperand t) ∧ vs.flatMap tokenChars = as ∧
      ws.flatMap tokenChars = bs := by
  induction us generalizing as with
  | nil =>
    obtain ⟨rfl, rfl⟩ := List.append_eq_nil_iff.1 h.symm
    exact ⟨[], [], rfl, by simp, rfl, rfl⟩
  | cons t us ih =>
    obtain ⟨ht, hus⟩ := List.forall_mem_cons.1 hus
    rcases as with _ | ⟨a, as⟩
    · exact ⟨[], t :: us, rfl, by simp, rfl, h⟩
    rw [List.flatMap_cons] at h
    obtain ⟨hoperand, hparts⟩ := ht.operand_of_isAlphanum h (has a List.mem_cons_self)
    obtain ⟨ds, hds, hrest⟩ | ⟨ds, hds, hrest⟩ := List.append_eq_append_iff.1 h
    · rw [hds] at has
      obtain ⟨vs, ws, rfl, hvs, hchars, hws⟩ := ih hus hrest (List.forall_mem_append.1 has).2
      exact ⟨t :: vs, ws, rfl, List.forall_mem_cons.2 ⟨hoperand, hvs⟩,
        by rw [List.flatMap_cons, hchars, hds], hws⟩
    · obtain rfl : ds = [] := by
        rcases ds with _ | ⟨d, ds⟩
        · rfl
        have hd := hparts d (by rw [hds]; exact List.mem_append_right _ List.mem_cons_self)
        rw [hbs d (by rw [hrest]; rfl)] at hd
        cases hd
      exact ⟨[t], us, rfl, by simpa using hoperand, by simpa using hds, by simpa using hrest.symm⟩

/-- What begins with the characters of a symbol begins with punctuation. -/
theorem exists_puncts {s : Condition.Symbol} {as bs : List Char} (hus : ∀ t ∈ us, Shape t)
    (h : us.flatMap tokenChars = as ++ bs) (has : ∀ c ∈ as, c ∈ s.text.toList) :
    ∃ vs ws, us = vs ++ ws ∧ (∀ t ∈ vs, t.kind = .punct) ∧ vs.flatMap tokenChars = as ∧
      ws.flatMap tokenChars = bs := by
  induction as generalizing us with
  | nil => exact ⟨[], us, rfl, by simp, rfl, h⟩
  | cons a as ih =>
    obtain ⟨ha, has'⟩ := List.forall_mem_cons.1 has
    rcases us with _ | ⟨t, us⟩
    · cases h
    obtain ⟨ht, hus⟩ := List.forall_mem_cons.1 hus
    rw [List.flatMap_cons] at h
    obtain ⟨hkind, hchars⟩ := ht.punct_of_mem_text h ha
    rw [hchars] at h
    obtain ⟨vs, ws, rfl, hvs, hvchars, hws⟩ := ih hus (List.cons.inj h).2 has'
    exact ⟨t :: vs, ws, rfl, List.forall_mem_cons.2 ⟨hkind, hvs⟩,
      by rw [List.flatMap_cons, hchars, hvchars]; rfl, hws⟩

/-! ## The expression that tokens write -/

/-- Tokens of a condition as an expression: a symbol is punctuation put together, and what a number
is spelled with is left open. -/
def conditionSpelling (number : Int64 → List Token → Prop) : Spelling Token where
  token
    | .number v, ts => number v ts
    | .symbol s, ts => (∀ t ∈ ts, t.kind = .punct) ∧ ts.flatMap (·.text.toList) = s.text.toList
  blank := IsSeparator

/-- A number is one operand. -/
def OneOperand (v : Int64) (ts : List Token) : Prop :=
  ∃ t, ts = [t] ∧ IsOperand t ∧ IsLiteral v (tokenChars t)

/-- A number is any operands that touch, taken together. -/
def TouchingOperands (v : Int64) (ts : List Token) : Prop :=
  ts ≠ [] ∧ (∀ t ∈ ts, IsOperand t) ∧ IsLiteral v (ts.flatMap tokenChars)

theorem tokenChars_punct (h : t.kind = .punct) : tokenChars t = t.text.toList :=
  tokenChars_other (by simp [h]) (by simp [IsSeparator, Lexeme.isTrivia, h, Kind.isTrivia])

theorem flatMap_tokenChars_puncts (h : ∀ t ∈ ts, t.kind = .punct) :
    ts.flatMap tokenChars = ts.flatMap (·.text.toList) := by
  rw [List.flatMap_def, List.flatMap_def, List.map_congr_left fun t ht => tokenChars_punct (h t ht)]

/-- The text of tokens that write an expression writes it. -/
theorem writes_expressionText {k : Nat} {e : Condition.Expr}
    (h : Writes (conditionSpelling TouchingOperands) k e ts) :
    Writes textSpelling k e (expressionText ts).toList := by
  rw [toList_expressionText]
  refine h.flatMap tokenChars (fun t us ht => ?_) fun t ht c hc => ?_
  · cases t with
    | number v => exact ht.2.2
    | symbol s => exact (flatMap_tokenChars_puncts ht.1).trans ht.2
  · rw [tokenChars_separator ht, List.mem_singleton] at hc
    subst hc
    exact Condition.mem_blank_iff.2 rfl

/-- Nothing but a blank or a symbol comes after a number. -/
theorem head_after_number {v : Int64} {ns : List Condition.Token} {cs : List Char}
    (hns : (.number v :: ns).IsChain Condition.Token.Follows) (h : Spelled textSpelling ns cs) :
    ∀ c ∈ cs.head?, isNumberPart c = false := by
  cases h with
  | nil => nofun
  | @blank _ a _ hblank _ =>
    rintro c ⟨⟩
    have hspace := Condition.mem_blank_iff.1 hblank
    simp only [isSpace, Bool.or_eq_true, beq_iff_eq] at hspace
    obtain ((rfl | rfl) | rfl) | rfl := hspace <;> rfl
  | @token n _ as bs ht _ =>
    obtain ⟨s, rfl⟩ : ∃ s, n = .symbol s := (List.isChain_cons_cons.1 hns).1
    obtain rfl : as = s.text.toList := ht
    intro c hc
    rw [List.head?_append_of_ne_nil _ (Condition.text_ne_nil s)] at hc
    exact (not_numberPart_of_mem_text c (List.mem_of_head? hc)).1

/-- What the text of tokens spells, the tokens spell. -/
theorem spelled_of_expressionText {ns : List Condition.Token} (hts : ∀ t ∈ ts, Shape t)
    (hns : ns.IsChain Condition.Token.Follows)
    (h : Spelled textSpelling ns (ts.flatMap tokenChars)) :
    Spelled (conditionSpelling TouchingOperands) ns ts := by
  generalize hcs : ts.flatMap tokenChars = cs at h
  induction h generalizing ts with
  | nil =>
    rcases ts with _ | ⟨t, ts⟩
    · exact .nil
    exact absurd (List.append_eq_nil_iff.1 hcs).1 (hts t List.mem_cons_self).ne_nil
  | @blank ns a as hblank _ ih =>
    rcases ts with _ | ⟨t, ts⟩
    · cases hcs
    obtain ⟨ht, hts⟩ := List.forall_mem_cons.1 hts
    rw [List.flatMap_cons] at hcs
    obtain ⟨hseparates, hrest⟩ := ht.separator_of_space hcs (Condition.mem_blank_iff.1 hblank)
    exact .blank hseparates (ih hts hns hrest)
  | @token n ns as bs htoken hrest ih =>
    cases n with
    | number v =>
      have hliteral : IsLiteral v as := htoken
      obtain ⟨vs, ws, rfl, hvs, rfl, rfl⟩ :=
        exists_operands hts hcs hliteral.isAlphanum (head_after_number hns hrest)
      have hne : vs ≠ [] := by
        rintro rfl
        obtain ⟨c, text, hnil, -⟩ := hliteral.first
        cases hnil
      exact .token (t := .number v) ⟨hne, hvs, hliteral⟩
        (ih (List.forall_mem_append.1 hts).2 hns.tail rfl)
    | symbol s =>
      obtain rfl : as = s.text.toList := htoken
      obtain ⟨vs, ws, rfl, hvs, hchars, rfl⟩ := exists_puncts hts hcs fun _ h => h
      exact .token (t := .symbol s) ⟨hvs, (flatMap_tokenChars_puncts hvs).symm.trans hchars⟩
        (ih (List.forall_mem_append.1 hts).2 hns.tail rfl)

/-- **The tokens of a condition write an expression exactly if their text does**, when operands that
touch are taken together. -/
theorem writes_expressionText_iff {e : Condition.Expr} (hts : ∀ t ∈ ts, Shape t) :
    Writes textSpelling 0 e (expressionText ts).toList ↔
      Writes (conditionSpelling TouchingOperands) 0 e ts := by
  refine ⟨fun h => ?_, writes_expressionText⟩
  obtain ⟨ns, hns, hspelled⟩ := Condition.writes_iff_spelled.1 h
  rw [toList_expressionText] at hspelled
  exact .of_tokens hns
    (spelled_of_expressionText hts (Condition.Operand.of_writes hns).follows hspelled)

/-! ## Operands side by side -/

theorem not_isSeparator_of_isOperand (h : IsOperand t) : ¬ IsSeparator t := by
  rintro hs
  obtain hk | hk := h <;> simp [IsSeparator, Lexeme.isTrivia, Kind.isTrivia, hk] at hs

/-- What begins with an operand, blanks apart, spells a number first. -/
theorem exists_number {ns : List Condition.Token} {between post : List Token} {u : Token}
    (h : Spelled (conditionSpelling TouchingOperands) ns ts) (hts : ts = between ++ u :: post)
    (hbetween : ∀ x ∈ between, IsSeparator x) (hu : IsOperand u) :
    ∃ v ns', ns = .number v :: ns' := by
  induction h generalizing between with
  | nil => simp at hts
  | blank hblank _ ih =>
    rcases between with _ | ⟨x, between⟩
    · obtain ⟨rfl, -⟩ := List.cons.inj hts
      exact absurd hblank (not_isSeparator_of_isOperand hu)
    · exact ih (List.cons.inj hts).2 (List.forall_mem_cons.1 hbetween).2
  | @token n ns as bs htoken _ _ =>
    cases n with
    | number v => exact ⟨v, ns, rfl⟩
    | symbol s =>
      obtain ⟨hpuncts, hchars⟩ := htoken
      rcases as with _ | ⟨a, as⟩
      · exact absurd hchars.symm (Condition.text_ne_nil s)
      have ha := hpuncts a List.mem_cons_self
      rcases between with _ | ⟨x, between⟩
      · obtain ⟨rfl, -⟩ := List.cons.inj hts
        obtain hk | hk := hu <;> rw [ha] at hk <;> cases hk
      · obtain ⟨rfl, -⟩ := List.cons.inj hts
        have hseparates := hbetween a List.mem_cons_self
        simp [IsSeparator, Lexeme.isTrivia, Kind.isTrivia, ha] at hseparates

/-- Only operands that touch are taken together. -/
theorem between_eq_nil {ns : List Condition.Token} {pre between post : List Token} {t u : Token}
    (h : Spelled (conditionSpelling TouchingOperands) ns ts)
    (hns : ns.IsChain Condition.Token.Follows) (hts : ts = pre ++ t :: (between ++ u :: post))
    (ht : IsOperand t) (hu : IsOperand u) (hbetween : ∀ x ∈ between, IsSeparator x) :
    between = [] := by
  induction h generalizing pre with
  | nil => simp at hts
  | blank hblank _ ih =>
    rcases pre with _ | ⟨p, pre⟩
    · obtain ⟨rfl, -⟩ := List.cons.inj hts
      exact absurd hblank (not_isSeparator_of_isOperand ht)
    · exact ih hns (List.cons.inj hts).2
  | @token n ns as bs htoken hrest ih =>
    obtain ⟨pre', rfl, hbs⟩ | ⟨cs, rfl, hcs⟩ := List.append_eq_append_iff.1 hts
    · exact ih hns.tail hbs
    rcases cs with _ | ⟨c, cs⟩
    · have hbs : bs = [] ++ t :: (between ++ u :: post) := hcs.symm
      exact ih hns.tail hbs
    obtain ⟨rfl, hafter⟩ := List.cons.inj hcs
    cases n with
    | symbol s =>
      have hkind := htoken.1 t (by simp)
      obtain hk | hk := ht <;> rw [hkind] at hk <;> cases hk
    | number v =>
      have hoperands := htoken.2.1
      rcases between with _ | ⟨x, between⟩
      · rfl
      rcases cs with _ | ⟨c, cs⟩
      · obtain ⟨v', ns', rfl⟩ := exists_number hrest hafter.symm hbetween hu
        obtain ⟨s, hs⟩ : ∃ s, Condition.Token.number v' = .symbol s :=
          (List.isChain_cons_cons.1 hns).1
        cases hs
      · obtain ⟨rfl, -⟩ := List.cons.inj hafter
        exact absurd (hbetween x List.mem_cons_self)
          (not_isSeparator_of_isOperand (hoperands x (by simp)))

/-- Where no operands touch, none are taken together. -/
theorem oneOperand_of_touching {ns : List Condition.Token}
    (h : Spelled (conditionSpelling TouchingOperands) ns ts)
    (hts : ts.IsChain fun t u => ¬ (IsOperand t ∧ IsOperand u)) :
    Spelled (conditionSpelling OneOperand) ns ts := by
  induction h with
  | nil => exact .nil
  | blank hblank _ ih => exact .blank hblank (ih hts.tail)
  | @token n ns as bs htoken hrest ih =>
    obtain ⟨has, hbs, -⟩ := List.isChain_append.1 hts
    cases n with
    | symbol s => exact .token (t := .symbol s) htoken (ih hbs)
    | number v =>
      obtain ⟨hne, hoperands, hliteral⟩ : TouchingOperands v as := htoken
      refine .token (t := .number v) ?_ (ih hbs)
      rcases as with _ | ⟨t, _ | ⟨u, as⟩⟩
      · exact absurd rfl hne
      · exact ⟨t, rfl, hoperands t List.mem_cons_self, by simpa using hliteral⟩
      · exact absurd ⟨hoperands t List.mem_cons_self, hoperands u (by simp)⟩
          (List.isChain_cons_cons.1 has).1

/-! ## Conditions -/

variable {macros : Table} {origin : Origin} {text : String} {b : Bool} {expanded : List Token}

/-- What the tokens of a condition are once `defined` and the macros have been replaced. -/
def Expanded (macros : Table) (origin : Origin) (text : String) (expanded : List Token) : Prop :=
  ∃ read replaced, conditionTokens origin text = .ok read ∧
    replaceDefined macros read = .ok replaced ∧ Macro.expand macros replaced = .ok expanded

theorem Expanded.conditionHolds_eq_ok_iff (h : Expanded macros origin text expanded) :
    conditionHolds macros origin text = .ok b ↔
      ∃ v, Condition.evaluate (expressionText expanded) = .ok v ∧ b = (v != 0) := by
  obtain ⟨read, replaced, hread, hreplaced, hexpanded⟩ := h
  rw [conditionHolds, hread]
  simp only [bind, Except.bind, hreplaced, hexpanded]
  cases Condition.evaluate (expressionText expanded) with
  | error fault => simp [throw, throwThe, MonadExceptOf.throw]
  | ok v => simp [pure, Except.pure, eq_comm]

theorem exists_expanded (h : conditionHolds macros origin text = .ok b) :
    ∃ expanded, Expanded macros origin text expanded := by
  rw [conditionHolds] at h
  obtain ⟨read, hread, h⟩ := bind_eq_ok.1 h
  obtain ⟨replaced, hreplaced, h⟩ := bind_eq_ok.1 h
  split at h
  next => cases h
  next expanded hexpanded => exact ⟨expanded, read, replaced, hread, hreplaced, hexpanded⟩

theorem Expanded.unique {expanded' : List Token} (h : Expanded macros origin text expanded)
    (h' : Expanded macros origin text expanded') : expanded' = expanded := by
  obtain ⟨read, replaced, hread, hreplaced, hexpanded⟩ := h
  obtain ⟨read', replaced', hread', hreplaced', hexpanded'⟩ := h'
  obtain rfl := Except.ok.inj (hread.symm.trans hread')
  obtain rfl := Except.ok.inj (hreplaced.symm.trans hreplaced')
  exact Except.ok.inj (hexpanded'.symm.trans hexpanded)

theorem suffix_skipTrivia {rest : List Token} (h : skipTrivia ts = t :: rest) : rest <:+ ts :=
  (List.suffix_cons t rest).trans (h ▸ List.dropWhile_suffix _)

theorem suffix_definedName {name : String} {rest : List Token}
    (h : definedName ts = .ok (name, rest)) : rest <:+ ts := by
  unfold definedName at h
  split at h
  next => cases h
  next t after hafter =>
    have hafter := suffix_skipTrivia hafter
    split at h
    next =>
      split at h
      next => cases h
      next n afterName hname =>
        have hname := suffix_skipTrivia hname
        split at h
        next =>
          split at h
          next => cases h
          next c afterClosing hclosing =>
            have hclosing := suffix_skipTrivia hclosing
            split at h
            next =>
              cases h
              exact (hclosing.trans hname).trans hafter
            next => cases h
        next => cases h
    next =>
      split at h
      next =>
        cases h
        exact hafter
      next => cases h

/-- What is known of the tokens of a condition and of one and zero is known once `defined` has been
replaced. -/
theorem forall_replaceDefined {P : Lexeme → Prop} {replaced : List Token} (hone : P ⟨.number, "1"⟩)
    (hzero : P ⟨.number, "0"⟩) (hts : ∀ t ∈ ts, P t.toLexeme)
    (h : replaceDefined macros ts = .ok replaced) : ∀ t ∈ replaced, P t.toLexeme := by
  induction ts using replaceDefined.induct macros generalizing replaced with
  | case1 =>
    rw [replaceDefined] at h
    cases h
    exact List.forall_mem_nil _
  | case2 t ts hdefined cause hname =>
    rw [replaceDefined, if_pos hdefined, hname] at h
    cases h
  | case3 t ts hdefined name rest hname ih =>
    rw [replaceDefined, if_pos hdefined, hname] at h
    obtain ⟨replaced, hrest, rfl⟩ := map_eq_ok.1 h
    refine List.forall_mem_cons.2 ⟨?_, ih (fun u hu => ?_) hrest⟩
    · dsimp only
      split
      · exact hone
      · exact hzero
    · exact hts u (List.mem_cons_of_mem t ((suffix_definedName hname).subset hu))
  | case4 t ts hdefined ih =>
    rw [replaceDefined, if_neg hdefined] at h
    obtain ⟨replaced, hrest, rfl⟩ := map_eq_ok.1 h
    obtain ⟨ht, hts⟩ := List.forall_mem_cons.1 hts
    exact List.forall_mem_cons.2 ⟨ht, ih hts hrest⟩

theorem Expanded.isWhole (h : Expanded macros origin text expanded)
    (hmacros : macros.Forall IsWhole) : ∀ t ∈ expanded, t.toLexeme.IsWhole := by
  obtain ⟨read, replaced, hread, hreplaced, hexpanded⟩ := h
  have hread : ∀ t ∈ read, t.toLexeme.IsWhole := by
    unfold conditionTokens at hread
    split at hread
    next lexemes hlexemes =>
      cases hread
      intro t ht
      obtain ⟨l, hl, rfl⟩ := List.mem_map.1 ht
      exact Lexeme.isWhole_of_ofText hlexemes l hl
    next => cases hread
  have hblank : IsWhole ⟨.whitespace, " "⟩ := ⟨List.cons_ne_nil _ _, rfl, nofun⟩
  have hone : IsWhole ⟨.number, "1"⟩ := ⟨List.cons_ne_nil _ _, rfl, nofun⟩
  have hzero : IsWhole ⟨.number, "0"⟩ := ⟨List.cons_ne_nil _ _, rfl, nofun⟩
  exact Macro.forall_expands hblank hmacros (Macro.expands_of_expand hexpanded)
    (forall_replaceDefined hone hzero hread hreplaced)

/-- **Operands that touch are read as one.**  In a condition that is accepted, between two operands
that no operator and no parenthesis stands between there is nothing at all; the value is that of the
expression which the tokens write when operands that touch are taken together, and if no two touch
then each operand is a number of its own. -/
theorem touching_of_conditionHolds (hmacros : macros.Forall IsWhole)
    (h : conditionHolds macros origin text = .ok b) :
    ∃ expanded, Expanded macros origin text expanded ∧ ((∀ t ∈ expanded, Unsigned t) →
      (∃ e v, Writes (conditionSpelling TouchingOperands) 0 e expanded ∧ Value e v ∧
        b = decide (v ≠ 0)) ∧
      (∀ pre t between u post, expanded = pre ++ t :: (between ++ u :: post) → IsOperand t →
        IsOperand u → (∀ x ∈ between, IsSeparator x) → between = []) ∧
      (expanded.IsChain (fun t u => ¬ (IsOperand t ∧ IsOperand u)) →
        ∃ e v, Writes (conditionSpelling OneOperand) 0 e expanded ∧ Value e v ∧
          b = decide (v ≠ 0))) := by
  obtain ⟨expanded, hexpanded⟩ := exists_expanded h
  refine ⟨expanded, hexpanded, fun hsigns => ?_⟩
  have hshapes (t : Token) (ht : t ∈ expanded) : Shape t :=
    shape_of_isWhole (hexpanded.isWhole hmacros t ht) (hsigns t ht)
  obtain ⟨v, hv, hb⟩ := hexpanded.conditionHolds_eq_ok_iff.1 h
  obtain ⟨e, he, hvalue⟩ : ∃ e, Writes textSpelling 0 e (expressionText expanded).toList ∧
      Value e v.toInt := by
    unfold Condition.evaluate at hv
    split at hv
    next e he => exact ⟨e, Condition.parse_eq_ok_iff.1 he, Condition.eval_eq_ok_iff.1 hv⟩
    next => cases hv
  have hb : b = decide (v.toInt ≠ 0) := by
    rw [hb, Bool.eq_iff_iff, bne_iff_ne, decide_eq_true_eq, Ne, Ne, Condition.toInt_eq_zero_iff]
  have hwrites := (writes_expressionText_iff hshapes).1 he
  obtain ⟨ns, hns, hspelled⟩ := Condition.writes_iff_spelled.1 hwrites
  have hfollows := (Condition.Operand.of_writes hns).follows
  refine ⟨⟨e, v.toInt, hwrites, hvalue, hb⟩, ?_, fun hchain => ?_⟩
  · exact fun pre t between u post hsplit ht hu => between_eq_nil hspelled hfollows hsplit ht hu
  · exact ⟨e, v.toInt, .of_tokens hns (oneOperand_of_touching hspelled hchain), hvalue, hb⟩

/-- The one that takes the place of `defined(X)` touches the one after it: they are eleven. -/
theorem touching_of_conditionHolds_apply :
    let macros := Table.empty.define ⟨"X", none, [⟨.number, "1"⟩]⟩
    let tokens : List Token := [(.number, "1"), (.number, "1"), (.whitespace, " "), (.punct, "="),
      (.punct, "="), (.whitespace, " "), (.number, "11")].map fun r => ⟨⟨r.1, r.2⟩, ⟨0, 0⟩, false, []⟩
    macros.Forall IsWhole ∧ conditionHolds macros ⟨0, 0⟩ "defined(X)1 == 11" = .ok true ∧
      ∃ e v, Writes (conditionSpelling TouchingOperands) 0 e tokens ∧ Value e v ∧ v ≠ 0 := by
  intro macros tokens
  have whole : macros.Forall IsWhole := by
    intro d hd l hl
    obtain rfl := List.mem_singleton.1 hd
    obtain rfl := List.mem_singleton.1 hl
    exact ⟨List.cons_ne_nil _ _, rfl, nofun⟩
  have holds : conditionHolds macros ⟨0, 0⟩ "defined(X)1 == 11" = .ok true := by cbv
  have comes : Expanded macros ⟨0, 0⟩ "defined(X)1 == 11" tokens :=
    ⟨_, _, by cbv, by cbv, by cbv⟩
  have unsigned : ∀ t ∈ tokens, Unsigned t := by decide
  obtain ⟨expanded, hexpanded, hall⟩ := touching_of_conditionHolds whole holds
  obtain rfl := comes.unique hexpanded
  obtain ⟨⟨e, v, writes, value, nonzero⟩, -⟩ := hall unsigned
  exact ⟨whole, holds, e, v, writes, value, of_decide_eq_true nonzero.symm⟩

/-- Two operands that no operator stands between are accepted where they touch. -/
theorem operands_glued :
    let macros := Table.empty.define ⟨"X", none, []⟩
    ∃ expanded pre t u post, conditionHolds macros ⟨0, 0⟩ "defined(X)1 == 11" = .ok true ∧
      Expanded macros ⟨0, 0⟩ "defined(X)1 == 11" expanded ∧ expanded = pre ++ t :: u :: post ∧
      IsOperand t ∧ IsOperand u := by
  intro macros
  let token (k : Kind) (text : String) : Token := ⟨⟨k, text⟩, ⟨0, 0⟩, false, []⟩
  refine ⟨_, [], token .number "1", token .number "1", [token .whitespace " ", token .punct "=",
    token .punct "=", token .whitespace " ", token .number "11"], by cbv, ?_, rfl, .inr rfl, .inr rfl⟩
  exact ⟨_, _, by cbv, by cbv, by cbv⟩

end ShaderPass.Preprocess
