import ShaderPass.Proofs.Directive.Words
import ShaderPass.Proofs.Lexeme.Words
import ShaderPass.Proofs.Text.Blank

/-!
# Proofs/Directive/Openings — the lines that open a group

    #ifdef⇥X␣␣            opens a group guarded by    .defined "X"
    #if!defined(X)␣       opens a group guarded by    .condition "!defined(X)"

A line of a word and a text is read as that word and that text, whatever blanks stand between the
two and after them (`parse?_ifdef`, `parse?_ifndef`, `parse?_if`): a name ends where the blanks
begin, and a condition is given without the blanks around it.
-/

namespace ShaderPass

namespace Lexeme

/-- Whether a text is read as a name. -/
def IsName (name : String) : Prop := IsWhole ⟨.identifier, name⟩

namespace IsName

variable {name : String}

theorem identifier_append {rest : List Char} (h : IsName name)
    (hrest : rest.head?.any Form.isIdentifierPart = false) :
    Form.identifier (name.toList ++ rest) = name.toList.length := by
  have hbegins : Form.Begins .identifier name.toList (name.toList ++ rest) :=
    (Form.begins_append (by decide) (by decide)).2 ⟨h, hrest⟩
  have hlength := (Form.identifier_of_form (congrArg Prod.fst hbegins.2.1)).2
  rw [← hlength, hbegins.2.1]

/-- A name starts as a name can, and goes on as a name can. -/
theorem exists_start (h : IsName name) : ∃ c cs, name.toList = c :: cs ∧
    Form.isIdentifierStart c = true ∧ ∀ d ∈ cs, Form.isIdentifierPart d = true := by
  have hlength : Form.identifier (name.toList ++ []) = name.toList.length := h.identifier_append rfl
  rw [List.append_nil] at hlength
  have hne : name.toList ≠ [] := h.1
  rcases hname : name.toList with _ | ⟨c, cs⟩
  · exact absurd hname hne
  rw [hname, Form.identifier] at hlength
  split at hlength
  next hc => exact ⟨c, cs, rfl, hc, Form.forall_of_run (Nat.add_right_cancel hlength)⟩
  next => cases hlength

theorem isWordPart (h : IsName name) : ∀ c ∈ name.toList, Form.isWordPart c = true := by
  obtain ⟨c, cs, hname, hc, hcs⟩ := h.exists_start
  rw [hname]
  exact List.forall_mem_cons.2 ⟨Form.isWordPart_of_identifierStart hc,
    fun d hd => Form.isWordPart_of_identifierPart (hcs d hd)⟩

end IsName

end Lexeme

namespace Directive

open Lexeme

variable {word name text line : String} {gap tail : String} {rest : List Char}

/-! ## Blanks between the parts -/

/-- Whether a text is made of blanks that stand between the parts of a directive. -/
def IsGap (gap : String) : Prop := ∀ c ∈ gap.toList, isGap c = true

instance (gap : String) : Decidable (IsGap gap) := List.decidableBAll _ _

theorem eq_of_isGap {c : Char} (h : isGap c = true) : c = ' ' ∨ c = '\t' := by
  simpa [isGap] using h

theorem isBlank_of_isGap {c : Char} (h : isGap c = true) : Text.isBlank c = true := by
  obtain rfl | rfl := eq_of_isGap h <;> decide

/-- What comes after blanks is found where they end. -/
theorem skipGap_append (hgap : IsGap gap) (hrest : rest.head?.any isGap = false) :
    skipGap (gap.toList ++ rest) = rest := by
  rw [skipGap, List.dropWhile_append_of_pos hgap]
  cases rest with
  | nil => rfl
  | cons c rest => exact List.dropWhile_cons_of_neg (Bool.eq_false_iff.1 hrest)

theorem afterGap?_append (hgap : IsGap gap) (hne : gap ≠ "")
    (hrest : rest.head?.any isGap = false) : afterGap? (gap.toList ++ rest) = some rest := by
  rcases hchars : gap.toList with _ | ⟨c, cs⟩
  · exact absurd (String.toList_eq_nil_iff.1 hchars) hne
  have hcs : IsGap (String.ofList cs) := fun d hd =>
    hgap d (hchars ▸ List.mem_cons_of_mem c (by rwa [String.toList_ofList] at hd))
  have hskip := skipGap_append hcs hrest
  rw [String.toList_ofList] at hskip
  rw [List.cons_append, afterGap?, if_pos (hgap c (hchars ▸ List.mem_cons_self)), hskip]

theorem atEnd?_gap (hgap : IsGap gap) : atEnd? gap.toList = some () := by
  have hskip : skipGap (gap.toList ++ []) = [] := skipGap_append hgap rfl
  rw [List.append_nil] at hskip
  rw [atEnd?, if_pos hskip]

/-- Blanks begin with nothing but a blank. -/
theorem head_gap {p : Char → Bool} (hgap : IsGap gap) (hne : gap ≠ "") (hspace : p ' ' = false)
    (htab : p '\t' = false) : (gap.toList ++ rest).head?.any p = false := by
  rcases hchars : gap.toList with _ | ⟨c, cs⟩
  · exact absurd (String.toList_eq_nil_iff.1 hchars) hne
  obtain rfl | rfl := eq_of_isGap (hgap c (hchars ▸ List.mem_cons_self))
  · exact hspace
  · exact htab

theorem head_gap_append {p : Char → Bool} (hgap : IsGap gap) (hspace : p ' ' = false)
    (htab : p '\t' = false) (hrest : rest.head?.any p = false) :
    (gap.toList ++ rest).head?.any p = false := by
  by_cases hempty : gap = ""
  · rwa [hempty, String.toList_empty, List.nil_append]
  · exact head_gap hgap hempty hspace htab

/-! ## Names -/

/-- No name begins with a blank. -/
theorem head_name (hname : IsName name) : (name.toList ++ rest).head?.any isGap = false := by
  obtain ⟨c, cs, hchars, hc, -⟩ := hname.exists_start
  rw [hchars]
  refine Bool.eq_false_iff.2 fun h => ?_
  obtain rfl | rfl := eq_of_isGap h <;> exact absurd hc (by decide)

/-- A name is read up to what cannot belong to it. -/
theorem name?_append (hname : IsName name) (hrest : rest.head?.any Form.isIdentifierPart = false) :
    name? (name.toList ++ rest) = some (name, rest) := by
  have hlength := hname.identifier_append hrest
  have hne : name.toList.length ≠ 0 := fun h => hname.1 (List.length_eq_zero_iff.1 h)
  unfold name?
  rw [hlength]
  split
  next h => exact absurd h hne
  next => rw [List.take_left, List.drop_left, String.ofList_toList]

theorem nameOnly?_append (hgap : IsGap gap) (hne : gap ≠ "") (hname : IsName name)
    (htail : IsGap tail) : nameOnly? (gap.toList ++ (name.toList ++ tail.toList)) = some name := by
  have hnil : ([] : List Char).head?.any Form.isIdentifierPart = false := rfl
  have hend := head_gap_append htail rfl rfl hnil
  rw [List.append_nil] at hend
  simp only [nameOnly?, Option.bind_eq_bind, afterGap?_append hgap hne (head_name hname),
    Option.bind_some, name?_append hname hend, atEnd?_gap htail]
  rfl

/-! ## Conditions -/

/-- Whether a text is within one line, begins with no blank and ends in none. -/
structure IsTrimmed (text : String) : Prop where
  onLine : ∀ c ∈ text.toList, isOnLine c = true
  first : ∃ c cs, text.toList = c :: cs ∧ Text.isBlank c = false
  last : ∀ c ∈ text.toList.getLast?, Text.isBlank c = false

theorem IsTrimmed.oneLine (h : IsTrimmed text) : '\n' ∉ text.toList := fun hmem =>
  absurd (h.onLine _ hmem) (by decide)

theorem onLine_of_isGap {c : Char} (h : isGap c = true) : isOnLine c = true := by
  obtain rfl | rfl := eq_of_isGap h <;> rfl

theorem IsTrimmed.singleton {c : Char} (hline : isOnLine c = true) (hblank : Text.isBlank c = false) :
    IsTrimmed (String.singleton c) := by
  have hchars : (String.singleton c).toList = [c] := String.toList_singleton c
  refine ⟨?_, ⟨c, [], hchars, hblank⟩, ?_⟩
  · rw [hchars]
    exact List.forall_mem_singleton.2 hline
  · rw [hchars]
    rintro x ⟨⟩
    exact hblank

/-- A text that begins and ends with texts that do not begin, or end, in a blank. -/
theorem IsTrimmed.append {first last : String} {between : String}
    (hfirst : IsTrimmed first) (hbetween : ∀ c ∈ between.toList, isOnLine c = true)
    (hlast : IsTrimmed last) : IsTrimmed (first ++ between ++ last) := by
  obtain ⟨c, cs, hc, hblank⟩ := hfirst.first
  obtain ⟨d, ds, hd, -⟩ := hlast.first
  refine ⟨?_, ⟨c, cs ++ between.toList ++ last.toList, by simp [hc], hblank⟩, ?_⟩
  · simp only [String.toList_append, List.forall_mem_append]
    exact ⟨⟨hfirst.onLine, hbetween⟩, hlast.onLine⟩
  · intro x hx
    refine hlast.last x ?_
    rwa [String.toList_append, List.getLast?_append_of_ne_nil _ (by simp [hd])] at hx

/-- A name begins and ends in no blank. -/
theorem isTrimmed_of_isName (hname : IsName name) : IsTrimmed name := by
  have solid {c : Char} (hc : Form.isWordPart c = true) :
      isOnLine c = true ∧ Text.isBlank c = false := by
    have blanks : (Text.blanks.all fun b => !Form.isWordPart b) = true := by decide
    have hblank : Text.isBlank c = false := Bool.eq_false_iff.2 fun hb => by
      have hno := List.all_eq_true.1 blanks c (List.contains_iff_mem.1 hb)
      rw [hc] at hno
      cases hno
    refine ⟨?_, hblank⟩
    rw [isOnLine, Bool.and_eq_true, bne_iff_ne, bne_iff_ne]
    constructor <;> rintro rfl <;> cases hc
  have hsolid : ∀ c ∈ name.toList, isOnLine c = true ∧ Text.isBlank c = false := fun c hc =>
    solid (hname.isWordPart c hc)
  obtain ⟨c, cs, hchars, -⟩ := hname.exists_start
  exact ⟨fun c hc => (hsolid c hc).1, ⟨c, cs, hchars, (hsolid c (by simp [hchars])).2⟩,
    fun c hc => (hsolid c (List.mem_of_getLast? hc)).2⟩

/-- The free text that blanks come after is given without them. -/
theorem freeText_append (htext : IsTrimmed text) (htail : IsGap tail) :
    freeText (text.toList ++ tail.toList) = (text, []) := by
  have hline : ∀ c ∈ text.toList ++ tail.toList, isOnLine c = true :=
    List.forall_mem_append.2 ⟨htext.onLine, fun c hc => onLine_of_isGap (htail c hc)⟩
  have htrim : Text.trimEnd (String.ofList (text.toList ++ tail.toList)) = text := by
    rw [Text.trimEnd_append_blanks fun c hc => isBlank_of_isGap (htail c hc), String.ofList_toList,
      Text.trimEnd_eq_self htext.last]
  obtain ⟨c, cs, hchars, hc⟩ := htext.first
  have hstart : Text.trimStart (String.ofList (text.toList ++ tail.toList)) =
      String.ofList (text.toList ++ tail.toList) := by
    rw [Text.trimStart, String.toList_ofList, hchars, List.cons_append,
      List.dropWhile_cons_of_neg (Bool.eq_false_iff.1 hc)]
  rw [freeText, List.takeWhile_eq_self_iff.2 hline, List.dropWhile_eq_nil_iff.2 hline, Text.trim,
    hstart, htrim]

theorem condition?_append (hgap : IsGap gap) (htext : IsTrimmed text) (htail : IsGap tail)
    (hne : gap = "" → text.toList.head? = some '!') :
    condition? (gap.toList ++ (text.toList ++ tail.toList)) = some (text, []) := by
  obtain ⟨c, cs, hchars, hc⟩ := htext.first
  by_cases hempty : gap = ""
  · have hmark := hne hempty
    rw [hchars, List.head?_cons, Option.some.injEq] at hmark
    subst hempty hmark
    rw [String.toList_empty, List.nil_append, ← freeText_append htext htail, hchars]
    rfl
  · have hstart : (text.toList ++ tail.toList).head?.any isGap = false := by
      rw [hchars]
      refine Bool.eq_false_iff.2 fun h => ?_
      rw [isBlank_of_isGap h] at hc
      cases hc
    have hafter := afterGap?_append hgap hempty hstart
    rcases hgapChars : gap.toList with _ | ⟨d, ds⟩
    · exact absurd (String.toList_eq_nil_iff.1 hgapChars) hempty
    rw [hgapChars] at hafter
    have hd := eq_of_isGap (hgap d (hgapChars ▸ List.mem_cons_self))
    unfold condition?
    split
    next h => exact absurd (List.cons.inj h).1 (by rintro rfl; simp at hd)
    next h => exact absurd (List.cons.inj h).1 (by rintro rfl; simp at hd)
    next => rw [hafter, Option.map_some, freeText_append htext htail]

/-! ## Lines -/

/-- Whether a line is a `#`, a word and a text, with blanks around the text; before an exclamation
mark there need be none. -/
inductive LineOf (word text : String) : String → Prop
  | intro {gap tail : String} (before : IsGap gap) (after : IsGap tail)
      (apart : gap = "" → text.toList.head? = some '!') :
      LineOf word text ("#" ++ word ++ gap ++ text ++ tail)

/-- The word of a line ends where its text, or a blank, begins. -/
theorem parse?_append (hword : IsName word) (hrest : rest.head?.any Form.isIdentifierPart = false)
    (hline : line.toList = '#' :: (word.toList ++ rest)) : parse? line = ofWord? word rest := by
  have hnothing : IsGap "" := by decide
  have hgap : ¬ skipGap (word.toList ++ rest) = [] := by
    have hskip : skipGap ([] ++ (word.toList ++ rest)) = word.toList ++ rest :=
      skipGap_append hnothing (head_name hword)
    rw [← List.nil_append (word.toList ++ rest), hskip]
    exact List.append_ne_nil_of_left_ne_nil hword.1 _
  unfold parse?
  split
  next heq =>
    obtain ⟨-, rfl⟩ := List.cons.inj (hline.symm.trans heq)
    rw [if_neg hgap, name?_append hword hrest]
    rfl
  next hno => exact absurd hline (hno _)

namespace LineOf

theorem parse?_name (h : LineOf word name line) (hword : IsName word) (hname : IsName name) :
    ∃ rest, parse? line = ofWord? word rest ∧ nameOnly? rest = some name := by
  obtain ⟨c, cs, hchars, hc, -⟩ := hname.exists_start
  obtain ⟨before, after, apart⟩ := h
  rename_i gap tail
  have hne : gap ≠ "" := fun hgap => by
    have hmark := apart hgap
    rw [hchars, List.head?_cons, Option.some.injEq] at hmark
    exact absurd (hmark ▸ hc) (by decide)
  refine ⟨gap.toList ++ (name.toList ++ tail.toList),
    parse?_append hword (head_gap before hne rfl rfl) ?_, nameOnly?_append before hne hname after⟩
  simp

/-- A line that asks whether a name has a macro. -/
theorem parse?_ifdef (h : LineOf "ifdef" name line) (hname : IsName name) :
    parse? line = some (.openGroup (.defined name), []) := by
  obtain ⟨rest, hparse, hrest⟩ := h.parse?_name ⟨by decide, rfl, nofun⟩ hname
  rw [hparse]
  simp only [ofWord?, hrest, Option.map_some]

theorem parse?_ifndef (h : LineOf "ifndef" name line) (hname : IsName name) :
    parse? line = some (.openGroup (.undefined name), []) := by
  obtain ⟨rest, hparse, hrest⟩ := h.parse?_name ⟨by decide, rfl, nofun⟩ hname
  rw [hparse]
  simp only [ofWord?, hrest, Option.map_some]

/-- A line with a condition. -/
theorem parse?_if (h : LineOf "if" text line) (htext : IsTrimmed text) :
    parse? line = some (.openGroup (.condition text), []) := by
  obtain ⟨before, after, apart⟩ := h
  rename_i gap tail
  obtain ⟨c, cs, hchars, -⟩ := htext.first
  have hend :
      (gap.toList ++ (text.toList ++ tail.toList)).head?.any Form.isIdentifierPart = false := by
    by_cases hne : gap = ""
    · have hmark := apart hne
      rw [hchars, List.head?_cons, Option.some.injEq] at hmark
      rw [hne, hchars, hmark]
      rfl
    · exact head_gap before hne rfl rfl
  have hword : IsName "if" := ⟨by decide, rfl, nofun⟩
  rw [parse?_append hword hend (by simp)]
  simp only [ofWord?, condition?_append before htext after apart, Option.map_some]

end LineOf

end Directive

end ShaderPass
