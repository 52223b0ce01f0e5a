import Mathlib.Data.List.TakeWhile
import Mathlib.Data.Nat.Digits.Lemmas
import ShaderPass.Proofs.Condition.Grammar

/-!
# Proofs/Condition/Literals — reading the literals of a condition

    0x1Fu      is a mark, digits and a suffix:      0x   1F   u

`ofDigits` reads exactly the numerals of a base (`ofDigits_eq_some_iff`), and `readDigits` reads what
is left of a literal without its suffix: whatever it reads is one (`readDigits_eq_some`), and it reads
every one up to its suffix (`readDigits_unsuffixed`).
-/

namespace ShaderPass.Condition

open Number (digitValue appendDigits ofDigits ofDigitsBelow isHexDigit)

variable {base n v : Nat} {c : Char} {cs text rest : List Char}

/-! ## Numerals -/

/-- A digit of a smaller base is a hexadecimal digit that is small enough. -/
theorem digitValue_eq_filter (hbase : base ≤ 16) :
    digitValue base c = (digitValue 16 c).filter (· < base) := by
  have go (d : Nat) : (if d < base then some d else none) =
      (if d < 16 then some d else none).filter (· < base) := by
    by_cases h : d < base
    · rw [if_pos h, if_pos (by omega), Option.filter_some_pos (by simpa using h)]
    · rw [if_neg h]
      split
      · rw [Option.filter_some_neg (by simpa using h)]
      · rfl
  unfold digitValue
  split
  · exact go _
  split
  · exact go _
  split
  · exact go _
  · simp

/-- The digits among the ASCII characters, one by one. -/
theorem digitValue_ofNat : ∀ n < 128, ∀ d < 16, digitValue 16 (Char.ofNat n) = some d ↔
    (Char.ofNat n).toLower = Nat.digitChar d := by
  decide +kernel

/-- No character behind the ASCII ones is a digit. -/
theorem digitValue_eq_none (h : 128 ≤ c.toNat) : digitValue 16 c = none := by
  have hdigit : ¬ c.isDigit = true := by
    rw [Char.isDigit, Bool.and_eq_true, decide_eq_true_eq, decide_eq_true_eq]
    rintro ⟨-, h'⟩
    have : c.toNat ≤ 57 := h'
    omega
  have hlower : ¬ ('a' ≤ c ∧ c ≤ 'f') := by
    rintro ⟨-, h'⟩
    have : c.toNat ≤ 102 := h'
    omega
  have hupper : ¬ ('A' ≤ c ∧ c ≤ 'F') := by
    rintro ⟨-, h'⟩
    have : c.toNat ≤ 70 := h'
    omega
  simp only [digitValue, if_neg hdigit, if_neg hlower, if_neg hupper, lt_irrefl, if_false]

/-- Only ASCII characters look like a digit in lower case. -/
theorem toNat_lt_of_toLower_eq_digitChar {d : Nat} (hd : d < 16) (h : c.toLower = Nat.digitChar d) :
    c.toNat < 128 := by
  by_contra hc
  have hlower : c.toLower = c := by
    refine dif_neg ?_
    rintro ⟨-, h⟩
    have : c.toNat ≤ 90 := h
    omega
  rw [hlower] at h
  have : ∀ d < 16, (Nat.digitChar d).toNat < 128 := by decide
  exact hc (h ▸ this d hd)

/-- A character is the digit that it looks like, in either case. -/
theorem digitValue_eq_some_iff (hbase : base ≤ 16) {d : Nat} :
    digitValue base c = some d ↔ d < base ∧ c.toLower = Nat.digitChar d := by
  have of_lt (hc : c.toNat < 128) (hd : d < 16) :
      digitValue 16 c = some d ↔ c.toLower = Nat.digitChar d := by
    have := digitValue_ofNat c.toNat hc d hd
    rwa [Char.ofNat_toNat] at this
  rw [digitValue_eq_filter hbase, Option.filter_eq_some_iff, decide_eq_true_eq, and_comm]
  refine and_congr_right fun hd => ?_
  have hd : d < 16 := by omega
  by_cases hc : c.toNat < 128
  · exact of_lt hc hd
  · rw [digitValue_eq_none (by omega)]
    exact ⟨nofun, fun h => absurd (toNat_lt_of_toLower_eq_digitChar hd h) hc⟩

/-- Digits after a number are those of the whole number behind its first ones. -/
theorem appendDigits_eq_some_iff (hbase : base ≤ 16) : appendDigits base v cs = some n ↔
    ∃ digits : List Nat, (∀ d ∈ digits, d < base) ∧ cs.map Char.toLower = digits.map Nat.digitChar ∧
      n = Nat.ofDigits base (digits.reverse ++ [v]) := by
  induction cs generalizing v with
  | nil =>
    rw [appendDigits, Option.some.injEq]
    constructor
    · rintro rfl
      exact ⟨[], by simp, rfl, by simp⟩
    · rintro ⟨digits, -, hdigits, rfl⟩
      rw [List.map_eq_nil_iff.1 hdigits.symm]
      simp
  | cons c cs ih =>
    rw [appendDigits]
    have go (d : Nat) (digits : List Nat) : Nat.ofDigits base (digits.reverse ++ [base * v + d]) =
        Nat.ofDigits base ((d :: digits).reverse ++ [v]) := by
      simp only [List.reverse_cons, List.append_assoc, Nat.ofDigits_append,
        List.singleton_append, Nat.ofDigits_cons, Nat.ofDigits_nil]
      ring
    constructor
    · intro h
      split at h
      next d hd =>
        obtain ⟨digits, hlt, hdigits, rfl⟩ := ih.1 h
        rw [digitValue_eq_some_iff hbase] at hd
        exact ⟨d :: digits, List.forall_mem_cons.2 ⟨hd.1, hlt⟩, by simp [hd.2, hdigits], go d digits⟩
      next => cases h
    · rintro ⟨_ | ⟨d, digits⟩, hlt, hdigits, rfl⟩
      · cases hdigits
      obtain ⟨hd, hdigits⟩ := List.cons.inj hdigits
      rw [List.forall_mem_cons] at hlt
      rw [(digitValue_eq_some_iff hbase).2 ⟨hlt.1, hd⟩]
      exact ih.2 ⟨digits, hlt.2, hdigits, (go d digits).symm⟩

/-- **The numerals of a base are read, each as its number, and nothing else is.** -/
theorem ofDigits_eq_some_iff (hbase : base ≤ 16) :
    ofDigits base cs = some n ↔ IsNumeral base n cs := by
  rw [ofDigits, IsNumeral]
  split
  next h => simp [h]
  next h =>
    have go (digits : List Nat) : Nat.ofDigits base (digits.reverse ++ [0]) =
        Nat.ofDigits base digits.reverse := by simp [Nat.ofDigits_append]
    simp only [appendDigits_eq_some_iff hbase, go, ne_eq, h, not_false_eq_true, true_and]

/-! ## The forms of a literal -/

/-- Numerals of small numbers are read, and nothing else is. -/
theorem ofDigitsBelow_eq_some_iff {bound : Nat} (hbase : base ≤ 16) :
    ofDigitsBelow bound base cs = some n ↔ IsNumeral base n cs ∧ n < bound := by
  rw [ofDigitsBelow, Option.filter_eq_some_iff, ofDigits_eq_some_iff hbase, decide_eq_true_eq]

/-- A numeral is made of digits of its base. -/
theorem IsNumeral.isSome_digitValue (hbase : base ≤ 16) (h : IsNumeral base n cs) :
    ∀ c ∈ cs, (digitValue base c).isSome = true := by
  obtain ⟨-, digits, hlt, hdigits, -⟩ := h
  intro c hc
  obtain ⟨d, hd, heq⟩ := List.mem_map.1 (hdigits ▸ List.mem_map_of_mem hc)
  rw [(digitValue_eq_some_iff hbase).2 ⟨hlt d hd, heq.symm⟩]
  rfl

/-- The digits of bases up to ten are the decimal ones. -/
theorem isDigit_of_digitValue (hbase : base ≤ 10) (h : (digitValue base c).isSome = true) :
    c.isDigit = true := by
  by_contra hc
  rw [digitValue, if_neg hc] at h
  split_ifs at h
  all_goals first
    | omega
    | cases h

theorem IsNumeral.isDigit (hbase : base ≤ 10) (h : IsNumeral base n cs) :
    ∀ c ∈ cs, c.isDigit = true :=
  fun c hc => isDigit_of_digitValue hbase (h.isSome_digitValue (by omega) c hc)

theorem IsNumeral.isHexDigit (h : IsNumeral 16 n cs) : ∀ c ∈ cs, isHexDigit c = true :=
  h.isSome_digitValue le_rfl

section Digits

open readDigits (readIn)

variable {p : Char → Bool} {u v : List Char}

/-- A zero and an x mark hexadecimal digits. -/
theorem readDigits_hexadecimal {x : Char} (hx : x = 'x' ∨ x = 'X') (text : List Char) :
    readDigits ('0' :: x :: text) = readIn 16 isHexDigit text := by
  obtain rfl | rfl := hx <;> rfl

/-- A zero before a digit marks octal digits, and is one of them itself. -/
theorem readDigits_octal {d : Char} (hd : d.isDigit = true) (text : List Char) :
    readDigits ('0' :: d :: text) = readIn 8 Char.isDigit (d :: text) := by
  have hx : d ≠ 'x' := by rintro rfl; cases hd
  have hX : d ≠ 'X' := by rintro rfl; cases hd
  rw [readDigits.eq_3 _ _ hx hX, if_pos hd]

/-- A zero before anything else is the number. -/
theorem readDigits_zero {d : Char} (hd : d.isDigit = false) (hx : ¬ (d = 'x' ∨ d = 'X'))
    (text : List Char) : readDigits ('0' :: d :: text) = (some 0, d :: text) := by
  rw [not_or] at hx
  rw [readDigits.eq_3 _ _ hx.1 hx.2, if_neg (by simp [hd])]

/-- Digits that start with no zero are decimal. -/
theorem readDigits_decimal (hc : c ≠ '0') (text : List Char) :
    readDigits (c :: text) = readIn 10 Char.isDigit (c :: text) :=
  readDigits.eq_4 _ (fun _ h => hc (List.cons.inj h).1) (fun _ h => hc (List.cons.inj h).1)
    fun _ _ h => hc (List.cons.inj h).1

/-- The digits read at the front of a text, and what follows them. -/
theorem readIn_eq_some (hbase : base ≤ 16) (h : (readIn base p text).1 = some n) :
    ∃ digits, text = digits ++ (readIn base p text).2 ∧ IsNumeral base n digits ∧ n < literalBound :=
  ⟨text.takeWhile p, List.takeWhile_append_dropWhile.symm, (ofDigitsBelow_eq_some_iff hbase).1 h⟩

theorem takeWhile_stop (h : ∀ d ∈ rest.head?, p d = false) :
    rest.takeWhile p = [] ∧ rest.dropWhile p = rest := by
  cases rest with
  | nil => exact ⟨rfl, rfl⟩
  | cons d rest =>
    have hd : ¬ p d = true := by simp [h d rfl]
    exact ⟨List.takeWhile_cons_of_neg hd, List.dropWhile_cons_of_neg hd⟩

/-- Digits are read up to what is no digit. -/
theorem readIn_numeral (hbase : base ≤ 16) (h : IsNumeral base n cs) (hn : n < literalBound)
    (hcs : ∀ c ∈ cs, p c = true) (hrest : ∀ d ∈ rest.head?, p d = false) :
    readIn base p (cs ++ rest) = (some n, rest) := by
  have hstop := takeWhile_stop hrest
  rw [readIn, List.takeWhile_append_of_pos hcs, List.dropWhile_append_of_pos hcs, hstop.1,
    hstop.2, List.append_nil, (ofDigitsBelow_eq_some_iff hbase).2 ⟨h, hn⟩]

/-- **What is read of a literal is one without its suffix**, below the bound, and the rest is left.
-/
theorem readDigits_eq_some (hc : c.isDigit = true) (h : (readDigits (c :: text)).1 = some n) :
    ∃ body, c :: text = body ++ (readDigits (c :: text)).2 ∧ Unsuffixed n body ∧ n < literalBound := by
  by_cases hzero : c = '0'
  · subst hzero
    cases text with
    | nil =>
      obtain rfl : 0 = n := Option.some.inj h
      exact ⟨['0'], rfl, .zero, by decide⟩
    | cons d text =>
      by_cases hx : d = 'x' ∨ d = 'X'
      · rw [readDigits_hexadecimal hx] at h ⊢
        obtain ⟨digits, hdigits, hnumeral, hn⟩ := readIn_eq_some le_rfl h
        exact ⟨'0' :: d :: digits, congrArg ('0' :: d :: ·) hdigits, .hexadecimal hx hnumeral, hn⟩
      cases hd : d.isDigit with
      | true =>
        rw [readDigits_octal hd] at h ⊢
        obtain ⟨digits, hdigits, hnumeral, hn⟩ := readIn_eq_some (by decide) h
        exact ⟨'0' :: digits, congrArg ('0' :: ·) hdigits, .octal hnumeral, hn⟩
      | false =>
        rw [readDigits_zero hd hx] at h ⊢
        obtain rfl : 0 = n := Option.some.inj h
        exact ⟨['0'], rfl, .zero, by decide⟩
  · rw [readDigits_decimal hzero] at h ⊢
    obtain ⟨digits, hdigits, hnumeral, hn⟩ := readIn_eq_some (by decide) h
    obtain ⟨d, digits, rfl⟩ := List.exists_cons_of_ne_nil hnumeral.1
    obtain ⟨rfl, -⟩ := List.cons.inj hdigits
    exact ⟨c :: digits, hdigits, .decimal hzero hnumeral, hn⟩

/-- **Every literal below the bound is read**, whatever suffix follows it. -/
theorem readDigits_unsuffixed (h : Unsuffixed n cs) (hn : n < literalBound)
    (hrest : ∀ d ∈ rest.head?, d = 'u' ∨ d = 'U') : readDigits (cs ++ rest) = (some n, rest) := by
  have hdigit : ∀ d ∈ rest.head?, d.isDigit = false := by
    intro d hd
    obtain rfl | rfl := hrest d hd <;> rfl
  cases h with
  | decimal hc hnumeral =>
    rw [List.cons_append, readDigits_decimal hc, ← List.cons_append]
    exact readIn_numeral (by decide) hnumeral hn (hnumeral.isDigit le_rfl) hdigit
  | zero =>
    cases rest with
    | nil => rfl
    | cons d rest =>
      refine readDigits_zero (hdigit d rfl) ?_ rest
      obtain rfl | rfl := hrest d rfl <;> decide
  | octal hnumeral =>
    obtain ⟨d, ds, rfl⟩ := List.exists_cons_of_ne_nil hnumeral.1
    rw [List.cons_append, List.cons_append,
      readDigits_octal (hnumeral.isDigit (by decide) d List.mem_cons_self), ← List.cons_append]
    exact readIn_numeral (by decide) hnumeral hn (hnumeral.isDigit (by decide)) hdigit
  | hexadecimal hx hnumeral =>
    rw [List.cons_append, List.cons_append, readDigits_hexadecimal hx]
    refine readIn_numeral le_rfl hnumeral hn hnumeral.isHexDigit fun d hd => ?_
    obtain rfl | rfl := hrest d hd <;> decide

end Digits

/-! ## The characters of a literal -/

theorem isAlphanum_of_isDigit (h : c.isDigit = true) : c.isAlphanum = true := by
  rw [Char.isAlphanum, h, Bool.or_true]

theorem isAlphanum_of_isHexDigit (h : isHexDigit c = true) : c.isAlphanum = true := by
  by_cases hc : c.toNat < 128
  · have hascii : ∀ n < 128, isHexDigit (Char.ofNat n) = true → (Char.ofNat n).isAlphanum = true := by
      decide +kernel
    have := hascii c.toNat hc
    rw [Char.ofNat_toNat] at this
    exact this h
  · rw [isHexDigit, digitValue_eq_none (by omega)] at h
    cases h

/-- A literal is made of letters and digits. -/
theorem Unsuffixed.isAlphanum (h : Unsuffixed n cs) : ∀ x ∈ cs, x.isAlphanum = true := by
  cases h with
  | decimal _ hnumeral => exact fun x hx => isAlphanum_of_isDigit (hnumeral.isDigit le_rfl x hx)
  | zero => simp [isAlphanum_of_isDigit]
  | octal hnumeral =>
    refine List.forall_mem_cons.2 ⟨rfl, fun x hx => ?_⟩
    exact isAlphanum_of_isDigit (hnumeral.isDigit (by decide) x hx)
  | hexadecimal hx hnumeral =>
    refine List.forall_mem_cons.2 ⟨rfl, List.forall_mem_cons.2 ⟨?_, fun x hx => ?_⟩⟩
    · obtain rfl | rfl := hx <;> rfl
    · exact isAlphanum_of_isHexDigit (hnumeral.isHexDigit x hx)

/-- A literal starts with a digit. -/
theorem IsLiteral.first {x : Int64} (h : IsLiteral x cs) :
    ∃ c text, cs = c :: text ∧ c.isDigit = true := by
  obtain ⟨n, body, suffix, rfl, hbody, -, -⟩ := h
  cases hbody with
  | decimal _ hnumeral => exact ⟨_, _, rfl, hnumeral.isDigit le_rfl _ List.mem_cons_self⟩
  | zero => exact ⟨_, _, rfl, rfl⟩
  | octal => exact ⟨_, _, rfl, rfl⟩
  | hexadecimal => exact ⟨_, _, rfl, rfl⟩

theorem IsLiteral.isAlphanum {x : Int64} (h : IsLiteral x cs) : ∀ c ∈ cs, c.isAlphanum = true := by
  obtain ⟨n, body, suffix, rfl, hbody, hsuffix, -⟩ := h
  refine List.forall_mem_append.2 ⟨hbody.isAlphanum, ?_⟩
  simp only [List.mem_cons, List.not_mem_nil, or_false] at hsuffix
  obtain rfl | rfl | rfl := hsuffix
  · exact List.forall_mem_nil _
  · exact List.forall_mem_singleton.2 rfl
  · exact List.forall_mem_singleton.2 rfl

end ShaderPass.Condition
