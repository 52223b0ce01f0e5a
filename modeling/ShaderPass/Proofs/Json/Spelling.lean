import Mathlib.Tactic.SplitIfs
import ShaderPass.Json.Read

/-!
# Proofs/Json/Spelling — a text is read off every spelling of it

    text          a        "    ⏎        é         😀
    a spelling    \u0061   \"   \n       é         \ud83d\ude00
    the one       a        \"   \n       é         😀
    written

What follows the spelling of a character changes how it is read neither for what finds the end of a
string (`readSpelling_of_spells`) nor for what finds its text (`text?_of_spells`).  The spelling
that is written spells its text (`spells_spell`).
-/

namespace ShaderPass.Json.Spelling

variable {text rest cs : List Char} {c : Char} {s : Spelling}

/-! ## The spelling that is written -/

/-- The two digits of a control character name it. -/
theorem unit_hexDigit : ∀ n < 0x20, unit '0' '0' (hexDigit (n / 16)) (hexDigit n) = some n := by
  decide

theorem spellsChar_spellChar (c : Char) : SpellsChar c (spellChar c) := by
  have short {e d : Char} (escape : shortEscape e = some d) (h : c = d) : SpellsChar c ['\\', e] :=
    .escape (h ▸ escape)
  rw [spellChar]
  split_ifs with quote backslash backspace formFeed newline carriageReturn tab control
  · exact short rfl quote
  · exact short rfl backslash
  · exact short rfl backspace
  · exact short rfl formFeed
  · exact short rfl newline
  · exact short rfl carriageReturn
  · exact short rfl tab
  · exact .digits (unit_hexDigit _ control)
  · exact .itself quote backslash control

/-- **What is written for a text spells it.** -/
theorem spells_spell (text : String) : (spell text).Spells text.toList := by
  rw [spell]
  induction text.toList with
  | nil => exact .nil
  | cons c cs ih => exact List.flatMap_cons ▸ .cons (spellsChar_spellChar c) ih

/-! ## The end of a string -/

/-- The letter of an escape is none that starts four digits. -/
theorem ne_u_of_shortEscape {e : Char} (h : shortEscape e = some c) : e ≠ 'u' := by
  rintro rfl
  cases h

/-- An escape with four digits is read on its own. -/
theorem readSpelling_digits {w x y z : Char} {n : Nat} (unit : unit w x y z = some n) :
    readSpelling ('\\' :: 'u' :: w :: x :: y :: z :: text) =
      (readSpelling text).map fun (t, rest) => ('\\' :: 'u' :: w :: x :: y :: z :: t, rest) := by
  rw [readSpelling, unit]
  rfl

theorem readSpelling_append (h : SpellsChar c s) :
    readSpelling (s ++ text) = (readSpelling text).map fun (t, rest) => (s ++ t, rest) := by
  cases h with
  | itself quote backslash printed =>
    rw [List.singleton_append, readSpelling, if_neg (not_or.2 ⟨backslash, printed⟩)]
    · rfl
    all_goals simp [quote, backslash]
  | @escape e escape =>
    show readSpelling ('\\' :: e :: text) = _
    rw [readSpelling, escape]
    · rfl
    · exact fun _ _ _ _ _ hu _ => ne_u_of_shortEscape escape hu
  | digits unit => exact readSpelling_digits unit
  | @pair w x y z w' x' y' z' high low first _ second =>
    show readSpelling ('\\' :: 'u' :: w :: x :: y :: z ::
      '\\' :: 'u' :: w' :: x' :: y' :: z' :: text) = _
    rw [readSpelling_digits first, readSpelling_digits second, Option.map_map]
    rfl

/-- **A spelling is read up to the quote after it.** -/
theorem readSpelling_of_spells (h : s.Spells cs) (rest : List Char) :
    readSpelling (s ++ '"' :: rest) = some (s, rest) := by
  induction h with
  | nil => rw [List.nil_append, readSpelling]
  | cons head _ ih => rw [List.append_assoc, readSpelling_append head, ih, Option.map_some]

/-! ## The text of a spelling -/

/-- The code unit of a character is no half of a surrogate pair. -/
theorem no_surrogate (c : Char) :
    isHighSurrogate c.toNat = false ∧ isLowSurrogate c.toNat = false := by
  have valid : c.toNat < 0xd800 ∨ 0xdfff < c.toNat ∧ c.toNat < 0x110000 := c.valid
  simp only [isHighSurrogate, isLowSurrogate, Bool.and_eq_false_iff, decide_eq_false_iff_not]
  omega

/-- The digits of a character are read as it, whether or not others follow them. -/
theorem decode?_digits {w x y z : Char} (unit : unit w x y z = some c.toNat) :
    decode? ('\\' :: 'u' :: w :: x :: y :: z :: text) = (decode? text).map (c :: ·) := by
  obtain ⟨high, low⟩ := no_surrogate c
  by_cases more : ∃ e f g h rest, text = '\\' :: 'u' :: e :: f :: g :: h :: rest
  · obtain ⟨e, f, g, h, rest, rfl⟩ := more
    rw [decode?, unit, Option.bind_some, high, low, Char.ofNat_toNat]
    rfl
  · rw [decode?, unit, Option.bind_some, high, low, Char.ofNat_toNat]
    · rfl
    · exact fun e f g h rest ht => more ⟨e, f, g, h, rest, ht⟩

theorem decode?_append (h : SpellsChar c s) :
    decode? (s ++ text) = (decode? text).map (c :: ·) := by
  cases h with
  | itself _ backslash _ =>
    rw [List.singleton_append, decode?, if_neg backslash]
    all_goals simp [backslash]
  | @escape e escape =>
    have hu := ne_u_of_shortEscape escape
    show decode? ('\\' :: e :: text) = _
    rw [decode?, escape]
    · rfl
    · exact fun _ _ _ _ _ _ _ _ _ h _ => hu h
    · exact fun _ _ _ _ _ h _ => hu h
  | digits unit => exact decode?_digits unit
  | @pair w x y z w' x' y' z' high low first isHigh second isLow char =>
    show decode? ('\\' :: 'u' :: w :: x :: y :: z ::
      '\\' :: 'u' :: w' :: x' :: y' :: z' :: text) = _
    rw [decode?, first, Option.bind_some, if_pos isHigh, second, Option.bind_some, if_pos isLow,
      char]

theorem decode?_of_spells (h : s.Spells cs) : decode? s = some cs := by
  induction h with
  | nil => rw [decode?]
  | cons head _ ih => rw [decode?_append head, ih, Option.map_some]

/-- **A text is read off each of its spellings.** -/
theorem text?_of_spells {t : String} (h : s.Spells t.toList) : text? s = some t := by
  rw [text?, decode?_of_spells h, Option.map_some, String.ofList_toList]

end ShaderPass.Json.Spelling
