import ShaderPass.Proofs.Directive.Words
import ShaderPass.Proofs.Lexeme.Rescan
import ShaderPass.Proofs.Macro.Lexemes
import ShaderPass.Proofs.Source.Lines
import ShaderPass.Proofs.Text.Blank

/-!
# Proofs/Directive/FreeText — the free text of a directive is on one line

    #define F(x) x + "a\⏎b"     freeText   x + "a\
    #version 330 ⏎              passed     #version 330

A directive line can hold a line feed, in a literal that goes over two lines.  The free text of a
directive ends before it, so no macro that a directive defines has a body with a line feed
(`oneLine_of_define`), and what is passed through is one line (`isLine_of_passThrough`).
-/

namespace ShaderPass

namespace Directive

variable {word line text : String} {rest after : List Char}

/-- A directive other than a lone `#` is written by a word. -/
theorem exists_ofWord? {d : Directive} (h : parse? line = some (d, after)) (hd : d ≠ .nothing) :
    ∃ word rest, ofWord? word rest = some (d, after) := by
  unfold parse? at h
  split at h
  next =>
    split at h
    next =>
      cases h
      exact absurd rfl hd
    next =>
      obtain ⟨⟨word, rest⟩, -, h⟩ := Option.bind_eq_some_iff.1 h
      exact ⟨word, rest, h⟩
  next => cases h

theorem not_mem_takeWhile_isOnLine (cs : List Char) : '\n' ∉ cs.takeWhile isOnLine := fun h =>
  absurd (List.all_eq_true.1 List.all_takeWhile _ h) (by decide)

theorem oneLine_freeText (cs : List Char) : '\n' ∉ (freeText cs).1.toList := fun h => by
  have h := Text.mem_of_mem_trim h
  rw [String.toList_ofList] at h
  exact not_mem_takeWhile_isOnLine cs h

theorem oneLine_of_define? {name body : String} {params : Option (List String)}
    (h : define? rest = some (.define name params body, after)) : '\n' ∉ body.toList := by
  simp only [define?, Option.bind_eq_bind, Option.bind_eq_some_iff, Option.pure_def] at h
  obtain ⟨_, -, _, -, h⟩ := h
  split at h
  next =>
    obtain ⟨_, -, h⟩ := Option.bind_eq_some_iff.1 h
    cases h
    exact oneLine_freeText _
  next =>
    obtain ⟨_, -, h⟩ := Option.bind_eq_some_iff.1 h
    cases h
    exact oneLine_freeText _

/-- Whether a text is a line that begins with `#` and ends in no blank. -/
structure IsLine (text : String) : Prop where
  hash : text.toList.head? = some '#'
  oneLine : '\n' ∉ text.toList
  trimmed : ∀ y ∈ text.toList.getLast?, Text.isBlank y = false

theorem isLine_of_passThrough? (hword : '\n' ∉ word.toList)
    (h : passThrough? word rest = some (.passThrough text, after)) : IsLine text := by
  unfold passThrough? at h
  split at h
  next =>
    cases h
    refine ⟨?_, fun hmem => ?_, Text.not_isBlank_getLast_trimEnd⟩
    · obtain ⟨ds, hds⟩ := Text.head_trimEnd (x := '#') (by decide)
        (word.toList ++ rest.takeWhile isOnLine)
      have hline : "#" ++ word ++ String.ofList (rest.takeWhile isOnLine) =
          String.ofList ('#' :: (word.toList ++ rest.takeWhile isOnLine)) := by
        refine String.toList_injective ?_
        simp only [String.toList_append, String.toList_ofList]
        rfl
      rw [hline, hds]
      rfl
    · have hmem := Text.mem_of_mem_trimEnd hmem
      rw [String.toList_append, String.toList_append, List.mem_append, List.mem_append] at hmem
      obtain (hmem | hmem) | hmem := hmem
      · exact absurd hmem (by decide)
      · exact hword hmem
      · rw [String.toList_ofList] at hmem
        exact not_mem_takeWhile_isOnLine rest hmem
  next => cases h

/-- **The body of a definition holds no line feed.** -/
theorem oneLine_of_define {name body : String} {params : Option (List String)}
    (h : parse? line = some (.define name params body, after)) : '\n' ∉ body.toList := by
  obtain ⟨word, rest, h⟩ := exists_ofWord? h nofun
  have hword := mem_spellings_of_ofWord? h
  obtain rfl : word = "define" := List.mem_singleton.1 hword
  exact oneLine_of_define? h

/-- What is passed through is written by one of the words whose lines are. -/
theorem exists_passThrough? (h : parse? line = some (.passThrough text, after)) :
    ∃ word ∈ passedWords, ∃ rest, passThrough? word rest = some (.passThrough text, after) := by
  obtain ⟨word, rest, h⟩ := exists_ofWord? h nofun
  have hword : word ∈ passedWords := mem_spellings_of_ofWord? h
  refine ⟨word, hword, rest, ?_⟩
  have hword : word ∈ ["version", "extension", "pragma", "line"] := hword
  simp only [List.mem_cons, List.not_mem_nil, or_false] at hword
  obtain rfl | rfl | rfl | rfl := hword
  · exact h
  · exact h
  · obtain h | ⟨-, h⟩ := Option.or_eq_some_iff.1 h
    · obtain ⟨d, hd, h⟩ := Option.map_eq_some_iff.1 h
      cases h
      have spelled : passedWords = ["pragma"] := spellings_once? hd
      exact absurd spelled (by decide)
    · exact h
  · exact h

/-- **What is passed through is one line that begins with `#`.** -/
theorem isLine_of_passThrough (h : parse? line = some (.passThrough text, after)) : IsLine text := by
  obtain ⟨word, hword, rest, h⟩ := exists_passThrough? h
  have known : ∀ w ∈ passedWords, '\n' ∉ w.toList := by decide
  exact isLine_of_passThrough? (known word hword) h

end Directive

/-- The lexemes of a text without line feeds hold none. -/
theorem Lexeme.oneLine_of_ofText {text : String} {ls : List Lexeme} (h : ofText text = .ok ls)
    (htext : '\n' ∉ text.toList) : ∀ l ∈ ls, l.OneLine := by
  intro l hl hmem
  obtain ⟨c₁, c₂, ⟨pre, hpre, -⟩, hnext⟩ := exists_next_of_ofText h l hl
  refine htext (hpre ▸ List.mem_append_right _ ?_)
  rw [(Cursor.reads_of_next hnext).rest]
  exact List.mem_append_left _ hmem

/-- The body of a macro holds no line feed if the text that it is read from does not. -/
theorem Macro.oneLine_of_read {name body : String} {params : Option (List String)}
    {d : Definition} (h : Definition.read name params body = .ok d) (hbody : '\n' ∉ body.toList) :
    ∀ l ∈ d.body, l.OneLine := by
  unfold Definition.read at h
  cases hread : Lexeme.ofText (Text.trim body) with
  | error fault =>
    rw [hread] at h
    cases h
  | ok ls =>
    rw [hread] at h
    cases h
    exact Lexeme.oneLine_of_ofText hread fun hmem => hbody (Text.mem_of_mem_trim hmem)

end ShaderPass
