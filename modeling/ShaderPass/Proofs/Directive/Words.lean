import Mathlib.Data.List.TakeWhile
import ShaderPass.Directive.Parse

/-!
# Proofs/Directive/Words — the word that a line is known by is the word of its directive

    # # if x       known by `if`, though it is no directive
    #if x          known by `if`, and a directive that `if` writes

A line is known by a word before anyone asks whether it is a directive (`Directive.wordOf`).  Where
it is one, the word is among those that can write that directive (`wordOf_mem_spellings`).  So what
depends on the word alone depends on the directive: text that is not emitted is read by the words of
its lines.
-/

namespace ShaderPass.Directive

open Lexeme

/-- The words that can write a directive; a lone `#` has none. -/
def spellings : Directive → List String
  | .define _ _ _ => ["define"]
  | .undefine _ => ["undef"]
  | .openGroup (.defined _) => ["ifdef"]
  | .openGroup (.undefined _) => ["ifndef"]
  | .openGroup (.condition _) => ["if"]
  | .elseIf _ => ["elif"]
  | .otherwise => ["else"]
  | .endGroup => ["endif"]
  | .splice _ => ["include"]
  | .stop _ => ["error"]
  | .once => ["pragma"]
  | .passThrough _ => passedWords
  | .nothing => [""]

variable {word line : String} {text rest : List Char} {d : Directive}

theorem spellings_define? (h : define? text = some (d, rest)) : d.spellings = ["define"] := by
  simp only [define?, Option.bind_eq_bind, Option.bind_eq_some_iff, Option.pure_def] at h
  obtain ⟨_, -, _, -, h⟩ := h
  split at h
  next =>
    obtain ⟨_, -, h⟩ := Option.bind_eq_some_iff.1 h
    cases h
    rfl
  next =>
    obtain ⟨_, -, h⟩ := Option.bind_eq_some_iff.1 h
    cases h
    rfl

theorem spellings_splice? (h : splice? text = some d) : d.spellings = ["include"] := by
  simp only [splice?, Option.bind_eq_bind, Option.pure_def] at h
  split at h
  all_goals
    obtain ⟨_, -, h⟩ := Option.bind_eq_some_iff.1 h
    obtain ⟨_, -, h⟩ := Option.bind_eq_some_iff.1 h
    cases h
    rfl

theorem spellings_once? (h : once? text = some d) : d.spellings = ["pragma"] := by
  simp only [once?, Option.bind_eq_bind, Option.bind_eq_some_iff, Option.pure_def] at h
  obtain ⟨_, -, h⟩ := h
  split at h
  next =>
    obtain ⟨_, -, h⟩ := Option.bind_eq_some_iff.1 h
    cases h
    rfl
  next => cases h

theorem spellings_passThrough? (h : passThrough? word text = some (d, rest)) :
    d.spellings = passedWords := by
  unfold passThrough? at h
  split at h
  next =>
    cases h
    rfl
  next => cases h

/-- A directive is written with one of its words. -/
theorem mem_spellings_of_ofWord? (h : ofWord? word text = some (d, rest)) : word ∈ d.spellings := by
  unfold ofWord? at h
  split at h
  case h_1 => exact spellings_define? h ▸ List.mem_singleton_self _
  case h_9 =>
    obtain ⟨d', hd, h⟩ := Option.map_eq_some_iff.1 h
    cases h
    exact spellings_splice? hd ▸ List.mem_singleton_self _
  case h_11 =>
    rcases Option.or_eq_some_iff.1 h with h | ⟨-, h⟩
    · obtain ⟨d', hd, h⟩ := Option.map_eq_some_iff.1 h
      cases h
      exact spellings_once? hd ▸ List.mem_singleton_self _
    · rw [spellings_passThrough? h]
      decide
  case h_15 => cases h
  all_goals
    first
    | rw [spellings_passThrough? h]; decide
    | obtain ⟨_, -, h⟩ := Option.map_eq_some_iff.1 h
      cases h
      exact List.mem_singleton_self _

/-! ## The words of open groups -/

/-- The words that name a directive of a group that is open. -/
def innerWords : List String := ["elif", "else", "endif"]

theorem mem_innerWords : word ∈ innerWords ↔ word ∈ groupWords ∧ word ∉ openingWords := by
  simp only [innerWords, groupWords, openingWords, List.mem_cons, List.not_mem_nil, or_false]
  grind

/-- The words of open groups write the directives of open groups alone. -/
theorem inner_of_mem_spellings (h : word ∈ d.spellings) (hword : word ∈ innerWords) :
    (∃ text, d = .elseIf text ∧ word = "elif") ∨ (d = .otherwise ∧ word = "else") ∨
      (d = .endGroup ∧ word = "endif") := by
  simp only [innerWords, List.mem_cons, List.not_mem_nil, or_false] at hword
  cases d with
  | elseIf text => exact .inl ⟨text, rfl, List.mem_singleton.1 h⟩
  | otherwise => exact .inr (.inl ⟨rfl, List.mem_singleton.1 h⟩)
  | endGroup => exact .inr (.inr ⟨rfl, List.mem_singleton.1 h⟩)
  | openGroup guard => cases guard <;> simp_all [spellings]
  | passThrough text =>
    have apart : ∀ w ∈ passedWords, w ∉ ["elif", "else", "endif"] := by decide
    exact absurd (by simpa using hword) (apart word h)
  | define | undefine | splice | stop | once | nothing => simp_all [spellings]

/-! ## The word a line is known by -/

/-- No name starts with a blank, nor with a `#`. -/
theorem not_blank_of_identifierStart {c : Char} (h : Form.isIdentifierStart c = true) :
    (c == '#') = false ∧ Text.isBlank c = false := by
  have blanks : (Text.blanks.all fun b => !Form.isIdentifierStart b) = true := by decide
  refine ⟨beq_false_of_ne fun he => ?_, Bool.eq_false_iff.2 fun hb => ?_⟩
  · exact absurd (he ▸ h) (by decide)
  · have hc := List.all_eq_true.1 blanks c (List.contains_iff_mem.1 hb)
    rw [h] at hc
    cases hc

theorem wordOf_of_name? (hline : line.toList = '#' :: text) (h : name? text = some (word, rest)) :
    wordOf line = word := by
  cases text with
  | nil => cases h
  | cons c cs =>
    unfold name? at h
    split at h
    next => cases h
    next hn =>
      cases h
      have hc : Form.isIdentifierStart c = true := Decidable.byContradiction fun hc =>
        hn (if_neg hc)
      obtain ⟨hhash, hblank⟩ := not_blank_of_identifierStart hc
      simp only [wordOf, hline, List.dropWhile_cons, beq_self_eq_true, if_true, hhash, hblank,
        Bool.false_eq_true, if_false]

/-- A lone `#` is known by no word. -/
theorem wordOf_of_skipGap (hline : line.toList = '#' :: text) (h : skipGap text = []) :
    wordOf line = "" := by
  have gap : ∀ c ∈ text, isGap c = true := List.dropWhile_eq_nil_iff.1 h
  have blank : ∀ c ∈ text, Text.isBlank c = true := by
    intro c hc
    have hc := gap c hc
    simp only [isGap, Bool.or_eq_true, beq_iff_eq] at hc
    rcases hc with rfl | rfl <;> decide
  have hash : text.dropWhile (· == '#') = text := by
    cases text with
    | nil => rfl
    | cons c cs =>
      have hc := gap c List.mem_cons_self
      simp only [isGap, Bool.or_eq_true, beq_iff_eq] at hc
      rcases hc with rfl | rfl <;> rfl
  simp only [wordOf, hline, List.dropWhile_cons, beq_self_eq_true, if_true, hash,
    List.dropWhile_eq_nil_iff.2 blank, List.take_nil, String.ofList_nil]

/-- **The word that a directive line is known by is one that writes the directive.** -/
theorem wordOf_mem_spellings (h : parse? line = some (d, rest)) : wordOf line ∈ d.spellings := by
  unfold parse? at h
  split at h
  next text hline =>
    split at h
    next hgap =>
      cases h
      rw [wordOf_of_skipGap hline hgap]
      exact List.mem_singleton_self _
    next =>
      obtain ⟨⟨word, after⟩, hname, h⟩ := Option.bind_eq_some_iff.1 h
      rw [wordOf_of_name? hline hname]
      exact mem_spellings_of_ofWord? h
  next => cases h

end ShaderPass.Directive
