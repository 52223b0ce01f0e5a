import ShaderPass.Proofs.Lexeme.Forms

/-!
# Proofs/Lexeme/Extension — a text that ends its last line is read the same in a longer one

    ⋯  u  ⏎              the lexemes up to the line end are those of u
    ⋯  u  ⏎  #  ⋯        … whatever comes after it

No lexeme but the line end itself, or a comment or literal that is closed before it, reaches to an
unescaped line end: how far any other form goes is seen from what comes before (`form_line`).  So a
text that **ends its line** is read lexeme by lexeme, and directive line by directive line, as it is
where more text follows (`Cursor.next_extend`, `Cursor.readLine_extend`), and the last that is read
of it is its line end (`EndsLine.of_reads`).
-/

namespace ShaderPass.Lexeme

open Form

/-! ## Forms before a line end -/

namespace Form

variable {u rest : List Char}

theorem run_line {p : Char → Bool} (hp : p '\n' = false) (u rest : List Char) :
    run p (u ++ '\n' :: rest) = run p u := by
  induction u with
  | nil => simp [run, hp]
  | cons c u ih =>
    cases hc : p c with
    | false => simp [run, hc]
    | true =>
      have hrun : ∀ text, run p (c :: text) = run p text + 1 := fun text => by
        rw [run, List.takeWhile_cons_of_pos hc]
        rfl
      rw [List.cons_append, hrun, hrun, ih]

theorem lineComment_line (u rest : List Char) :
    lineComment (u ++ '\n' :: rest) = lineComment u := by
  rcases u with _ | ⟨c, _ | ⟨d, u⟩⟩
  · rfl
  · simp [lineComment]
  · by_cases h : c = '/' ∧ d = '/'
    · obtain ⟨rfl, rfl⟩ := h
      exact congrArg (2 + ·) (run_line (by decide) u rest)
    · unfold lineComment
      split <;> split <;> simp_all

/-- A comment that is closed is closed in a longer text. -/
theorem commentClose_of_append {n : Nat} (h : commentClose u = some n) (rest : List Char) :
    commentClose (u ++ rest) = some n := by
  obtain ⟨v, w, rfl, rfl⟩ : ∃ v w, u = v ++ w ∧ n = v.length :=
    ⟨u.take n, u.drop n, (List.take_append_drop n u).symm,
      by rw [List.length_take, Nat.min_eq_left (commentClose_le h)]⟩
  rw [List.append_assoc]
  exact commentClose_append.2 (commentClose_append.1 h)

theorem commentClose_line (u : List Char) : commentClose (u ++ ['\n']) = commentClose u := by
  induction u with
  | nil => rfl
  | cons c u ih =>
    rw [List.cons_append, commentClose_cons, commentClose_cons, ih]
    cases u with
    | nil => simp
    | cons d u => rfl

theorem blockComment_line (closed : blockComment (u ++ ['\n']) ≠ 0) (rest : List Char) :
    blockComment (u ++ '\n' :: rest) = blockComment u := by
  rcases u with _ | ⟨c, _ | ⟨d, u⟩⟩
  · exact absurd rfl closed
  · simp [blockComment] at closed
  · by_cases h : c = '/' ∧ d = '*'
    · obtain ⟨rfl, rfl⟩ := h
      have hline : blockComment ('/' :: '*' :: u ++ ['\n']) = blockComment ('/' :: '*' :: u) := by
        simp only [List.cons_append, blockComment, commentClose_line]
      rw [hline] at closed
      cases hclose : commentClose u with
      | none =>
        simp only [blockComment, hclose] at closed
        exact absurd rfl closed
      | some n =>
        simp only [List.cons_append, blockComment, hclose, commentClose_of_append hclose]
    · refine absurd ?_ closed
      unfold blockComment
      split <;> simp_all

theorem identifier_line (u rest : List Char) : identifier (u ++ '\n' :: rest) = identifier u := by
  cases u with
  | nil => rfl
  | cons c u =>
    have hrun : run isIdentifierPart (u ++ '\n' :: rest) = run isIdentifierPart u :=
      run_line (by decide) u rest
    rw [List.cons_append, identifier, identifier, hrun]

theorem numberTail_line (u rest : List Char) : numberTail (u ++ '\n' :: rest) = numberTail u := by
  have hline : numberTail ('\n' :: rest) = 0 := (numberTail_eq_zero _).2 rfl
  fun_induction numberTail u with
  | case1 => exact hline
  | case2 c h =>
    have hsign : isExponentSign c '\n' = false := by simp [isExponentSign]
    simp [numberTail, hsign, h, hline]
  | case3 c h =>
    have hsign : isExponentSign c '\n' = false := by simp [isExponentSign]
    simp [numberTail, hsign, h]
  | case4 c d text h ih => simp [numberTail, h, ih]
  | case5 c d text h hc ih =>
    rw [List.cons_append] at ih
    simp [numberTail, h, hc, ih]
  | case6 c d text h hc => simp [numberTail, h, hc]

theorem number_line (u rest : List Char) : number (u ++ '\n' :: rest) = number u := by
  rcases u with _ | ⟨c, _ | ⟨d, u⟩⟩
  · rfl
  · have htail := numberTail_line [] rest
    by_cases hc : c = '.'
    · subst hc
      rfl
    · unfold number
      split <;> split <;> simp_all
  · by_cases hc : c = '.'
    · subst hc
      simp only [List.cons_append, number, numberTail_line]
    · have htail := numberTail_line (d :: u) rest
      rw [List.cons_append] at htail
      unfold number
      split <;> split <;> simp_all

theorem not_getLast?_of_cons {c d : Char} (h : (c :: u).getLast? ≠ some d) :
    u.getLast? ≠ some d := by
  intro hu
  rw [List.getLast?_cons, hu] at h
  exact h rfl

/-- The search for a closing quote ends at a line end that is not escaped. -/
theorem quoteClose_line {quote : Char} (hq : quote ≠ '\n') (hu : u.getLast? ≠ some '\\')
    (rest : List Char) : quoteClose quote (u ++ '\n' :: rest) = quoteClose quote u := by
  fun_induction quoteClose quote u with
  | case1 => simp [quoteClose, hq.symm]
  | case2 c text ih =>
    simp [quoteClose, ih (not_getLast?_of_cons (not_getLast?_of_cons hu))]
  | case3 text hesc =>
    rw [List.cons_append, quoteClose, if_pos rfl]
    rintro d text' rfl he
    cases text with
    | nil => exact hu rfl
    | cons => exact hesc _ _ rfl rfl
  | case4 c text hesc hne h =>
    rcases h with rfl | rfl
    · cases text with
      | nil => exact absurd rfl hu
      | cons d text => exact absurd rfl (hesc d text rfl)
    · rw [List.cons_append, quoteClose, if_neg hne, if_pos (.inr rfl)]
      exact fun _ _ he => absurd he (by decide)
  | case5 c text hesc hne h ih =>
    rw [List.cons_append, quoteClose, if_neg hne, if_neg h, ih (not_getLast?_of_cons hu)]
    exact fun _ _ he => absurd (Or.inl he) h

theorem quoted_line {quote : Char} (hq : quote ≠ '\n') (hu : u.getLast? ≠ some '\\')
    (rest : List Char) : quoted quote (u ++ '\n' :: rest) = quoted quote u := by
  cases u with
  | nil => exact quoted_eq_zero quote (Ne.symm hq) rest
  | cons c u =>
    rw [List.cons_append, quoted, quoted, quoteClose_line hq (not_getLast?_of_cons hu)]

theorem newline_line (u rest : List Char) : newline (u ++ '\n' :: rest) = newline (u ++ ['\n']) := by
  rcases u with _ | ⟨c, _ | ⟨d, u⟩⟩
  · rfl
  · unfold newline
    split <;> split <;> simp_all
  · unfold newline
    split <;> split <;> simp_all

variable (hu : u.getLast? ≠ some '\\')
include hu

/-- **The lexeme at the front of a text up to a line end is the same whatever comes after it**, unless
it is a comment that is closed only there. -/
theorem form_line (closed : blockComment (u ++ '\n' :: rest) ≠ 0 → blockComment (u ++ ['\n']) ≠ 0) :
    form (u ++ '\n' :: rest) = form (u ++ ['\n']) := by
  have hblock : blockComment (u ++ '\n' :: rest) = blockComment (u ++ ['\n']) := by
    by_cases h : blockComment (u ++ ['\n']) = 0
    · rw [h]
      exact Decidable.byContradiction fun hne => closed hne h
    · rw [blockComment_line h, ← blockComment_line h []]
  rw [form_eq, form_eq, newline_line, whitespace, whitespace, run_line rfl, run_line rfl,
    lineComment_line, lineComment_line, hblock, identifier_line, identifier_line, number_line,
    number_line, quoted_line (by decide) hu, quoted_line (by decide) hu,
    quoted_line (by decide) hu, quoted_line (by decide) hu]

/-- Only a line end reaches to the end of the line. -/
theorem form_line_le (h : (form (u ++ ['\n'])).1 ≠ .newline) :
    (form (u ++ ['\n'])).2 ≤ u.length := by
  have hpos : u ≠ [] := by
    rintro rfl
    exact h rfl
  have hblock : blockComment (u ++ ['\n']) ≠ 0 → blockComment (u ++ ['\n']) ≤ u.length := fun hne =>
    blockComment_line hne [] ▸ blockComment_le u
  rw [form_eq, whitespace, run_line rfl, lineComment_line, identifier_line, number_line,
    quoted_line (by decide) hu, quoted_line (by decide) hu] at h ⊢
  split at h
  next => exact absurd rfl h
  next hn =>
    rw [if_neg hn]
    split
    next => exact run_le _ u
    next =>
    split
    next => exact lineComment_le u
    next =>
    split
    next hne => exact hblock hne
    next =>
    split
    next => exact identifier_le u
    next =>
    split
    next => exact number_le u
    next =>
    split
    next => exact quoted_le _ u
    next =>
    split
    next => exact quoted_le _ u
    next => exact List.length_pos_iff.2 hpos

end Form

/-! ## Texts that end their line -/

/-- A text **ends its line**: with a line end that no backslash stands before. -/
structure EndsLine (text : List Char) : Prop where
  lineEnd : ['\n'] <:+ text
  unescaped : ¬['\\', '\n'] <:+ text
  unescapedCrlf : ¬['\\', '\r', '\n'] <:+ text

variable {text rest more : List Char}

namespace EndsLine

theorem ne_nil (h : EndsLine text) : text ≠ [] := by
  rintro rfl
  exact List.cons_ne_nil _ _ (List.suffix_nil.1 h.lineEnd)

/-- The rest of such a text ends its line too, unless nothing is left. -/
theorem suffix (h : EndsLine text) (hs : rest <:+ text) (hne : rest ≠ []) : EndsLine rest := by
  refine ⟨?_, fun hr => h.unescaped (hr.trans hs), fun hr => h.unescapedCrlf (hr.trans hs)⟩
  exact List.suffix_of_suffix_length_le h.lineEnd hs (List.length_pos_iff.2 hne)

theorem exists_line (h : EndsLine text) : ∃ u, text = u ++ ['\n'] ∧ u.getLast? ≠ some '\\' := by
  obtain ⟨u, rfl⟩ := h.lineEnd
  refine ⟨u, rfl, fun hu => ?_⟩
  obtain ⟨v, rfl⟩ := List.getLast?_eq_some_iff.1 hu
  exact h.unescaped ⟨v, by rw [List.append_assoc]; rfl⟩

end EndsLine

namespace Cursor

variable {mode : Mode} {c c' : Cursor} {l : Lexeme}

/-- A cursor in a longer text. -/
def extend (c : Cursor) (more : List Char) : Cursor := ⟨c.rest ++ more, c.location⟩

theorem extend_nil (c : Cursor) : c.extend [] = c := by rw [extend, List.append_nil]

theorem Crosses.suffix {ends : List Nat} (h : c.Crosses ends c') : c'.rest <:+ c.rest := by
  induction h with
  | refl => exact List.suffix_refl _
  | lineEnd reads _ _ ih | other reads _ _ ih => exact ih.trans ⟨_, reads.rest.symm⟩

theorem suffix_of_reads (h : c.Reads l c') : c'.rest <:+ c.rest := ⟨_, h.rest.symm⟩

/-- **Where a text ends its line, a lexeme that is no line end leaves some of it.** -/
theorem rest_ne_nil_of_reads (hc : EndsLine c.rest) (h : c.Reads l c') (hl : l.kind ≠ .newline) :
    c'.rest ≠ [] := by
  obtain ⟨u, hu, hlast⟩ := hc.exists_line
  have hform := h.form
  rw [hu] at hform
  have hle := form_line_le hlast (by rw [hform]; exact hl)
  have hlength := congrArg List.length h.rest
  rw [hform] at hle
  rw [hu, List.length_append, List.length_append, List.length_singleton] at hlength
  intro hnil
  rw [hnil, List.length_nil] at hlength
  omega

/-- What can be wrong with a text is seen before its line end. -/
theorem fault?_line (mode : Mode) (u rest : List Char) :
    fault? mode (u ++ '\n' :: rest) = fault? mode (u ++ ['\n']) := by
  rcases u with _ | ⟨c, _ | ⟨d, u⟩⟩
  · rfl
  · unfold fault?
    split <;> split <;> simp_all
  · unfold fault?
    split <;> split <;> simp_all

/-- Where a lexeme is read, a comment that begins there is closed. -/
theorem closed_of_next (h : c.next mode = .ok (some (l, c'))) (hc : ['/', '*'] <+: c.rest) :
    blockComment c.rest ≠ 0 := by
  obtain ⟨text, hrest⟩ := hc
  intro hzero
  rw [← hrest] at hzero
  have hform : form c.rest = (.punct, 1) := hrest ▸ form_slash rfl hzero
  rw [next, if_neg (hrest ▸ List.cons_ne_nil _ _), hform, ← hrest] at h
  cases h

theorem opens_of_blockComment (h : blockComment text ≠ 0) : ['/', '*'] <+: text := by
  unfold blockComment at h
  split at h
  next text => exact ⟨text, rfl⟩
  next => exact absurd rfl h

/-- **Where a text ends its line, the next lexeme is the same in a longer text.** -/
theorem next_extend (hc : more = [] ∨ EndsLine c.rest) (h : c.next mode = .ok (some (l, c'))) :
    (c.extend more).next mode = .ok (some (l, c'.extend more)) := by
  rcases hc with rfl | hc
  · rwa [extend_nil, extend_nil]
  obtain ⟨u, hu, hlast⟩ := hc.exists_line
  have hmore : c.rest ++ more = u ++ '\n' :: more := by rw [hu, List.append_assoc]; rfl
  have hform : form (c.rest ++ more) = form c.rest := by
    rw [hmore, hu]
    refine form_line hlast fun hblock => hu ▸ closed_of_next h ?_
    obtain ⟨text, htext⟩ := opens_of_blockComment hblock
    rw [hu]
    rcases u with _ | ⟨a, _ | ⟨b, u⟩⟩
    · simp at htext
    · simp at htext
    · obtain ⟨rfl, htail⟩ := List.cons.inj htext
      obtain ⟨rfl, -⟩ := List.cons.inj htail
      exact ⟨u ++ ['\n'], rfl⟩
  have hfault : fault? mode (c.rest ++ more) = fault? mode c.rest := by
    rw [hmore, hu, fault?_line]
  have hle := form_le hc.ne_nil
  rw [next, if_neg hc.ne_nil] at h
  have hne : (c.extend more).rest ≠ [] := fun he => hc.ne_nil (List.append_eq_nil_iff.1 he).1
  rw [next, if_neg hne]
  simp only [extend, hform, hfault] at h ⊢
  split at h
  next => cases h
  next hnone =>
    cases h
    simp only [skip, List.take_append_of_le_length hle, List.drop_append_of_le_length hle]

/-! ## Directive lines -/

/-- The cursor after a line end is seen from the line end alone. -/
theorem afterLineEnd?_eq (c : Cursor) : Directive.afterLineEnd? c =
    if newline c.rest ≠ 0 then some (c.skip (newline c.rest)) else none := by
  rw [Directive.afterLineEnd?, next]
  by_cases hnil : c.rest = []
  · rw [if_pos hnil, hnil]
    rfl
  rw [if_neg hnil]
  by_cases hnewline : newline c.rest = 0
  · have hkind : (form c.rest).1 ≠ .newline := fun hk => (newline_of_form hk).1 hnewline
    rw [if_neg (not_not_intro hnewline)]
    simp only
    split
    next hnext =>
      split at hnext
      next => cases hnext
      next =>
        cases hnext
        exact if_neg hkind
    next => rfl
  · have hform : form c.rest = (.newline, newline c.rest) := by rw [form_eq, if_pos hnewline]
    rw [if_pos hnewline, hform]
    rfl

theorem afterLineEnd?_extend (hc : EndsLine c.rest) (more : List Char) :
    Directive.afterLineEnd? (c.extend more) =
      (Directive.afterLineEnd? c).map (·.extend more) := by
  obtain ⟨u, hu, -⟩ := hc.exists_line
  have hnewline : newline (c.extend more).rest = newline c.rest := by
    rw [extend, hu, List.append_assoc]
    exact newline_line u more
  have hle := newline_le c.rest
  rw [afterLineEnd?_eq, afterLineEnd?_eq, hnewline]
  split
  next =>
    simp only [extend, skip, Option.map_some, List.take_append_of_le_length hle,
      List.drop_append_of_le_length hle]
  next => rfl

theorem continuation?_extend (hc : EndsLine c.rest) (l : Lexeme) (more : List Char) :
    Directive.continuation? l (c.extend more) =
      (Directive.continuation? l c).map (·.extend more) := by
  rw [Directive.continuation?, Directive.continuation?]
  split
  next => exact afterLineEnd?_extend hc more
  next => rfl

/-- A line end that goes on with a directive is not the end of a text that ends its line. -/
theorem endsLine_of_continuation {c'' : Cursor} (hc : EndsLine c.rest) (h : c.Reads l c')
    (hcont : Directive.continuation? l c' = some c'') : EndsLine c''.rest := by
  have hsuffix : c''.rest <:+ c'.rest := (crosses_of_continuation hcont).suffix
  refine hc.suffix (hsuffix.trans (suffix_of_reads h)) fun hnil => ?_
  rw [Directive.continuation?] at hcont
  split at hcont
  next hl =>
    rw [isPunct, Bool.and_eq_true, beq_iff_eq, beq_iff_eq] at hl
    have hrest : c.rest = '\\' :: c'.rest := by rw [h.rest, hl.2]; rfl
    rw [afterLineEnd?_eq] at hcont
    split at hcont
    next hne =>
      obtain rfl := Option.some.inj hcont
      have hdrop : c'.rest.drop (newline c'.rest) = [] := hnil
      unfold newline at hne hdrop
      split at hne
      next heq =>
        rw [heq] at hrest hdrop
        obtain rfl : _ = [] := hdrop
        exact hc.unescapedCrlf (hrest ▸ List.suffix_refl _)
      next heq =>
        rw [heq] at hrest hdrop
        obtain rfl : _ = [] := hdrop
        exact hc.unescaped (hrest ▸ List.suffix_refl _)
      next => exact hne rfl
    next => cases hcont
  next => cases hcont

theorem readsRest_extend {after : Cursor} {line : String} {ends : List Nat} (hc : EndsLine c.rest)
    (h : Directive.ReadsRest c line ends after) (more : List Char) :
    Directive.ReadsRest (c.extend more) line ends (after.extend more) := by
  induction h with
  | atEnd next => exact absurd (next_eq_none next) hc.ne_nil
  | lineEnd next newline => exact .lineEnd (next_extend (.inr hc) next) newline
  | @continued c c' _ _ l _ _ next noNewline continues _ ih =>
    have reads := reads_of_next next
    have hc' := hc.suffix (suffix_of_reads reads) (rest_ne_nil_of_reads hc reads noNewline)
    have continues' := continuation?_extend hc' l more
    rw [continues, Option.map_some] at continues'
    have rest := ih (endsLine_of_continuation hc reads continues)
    have next' : (c.extend more).next .lenient = .ok (some (l, c'.extend more)) :=
      next_extend (.inr hc) next
    have continued := Directive.ReadsRest.continued next' noNewline continues' rest
    exact continued
  | lexeme next noNewline stops _ ih =>
    have reads := reads_of_next next
    have hc' := hc.suffix (suffix_of_reads reads) (rest_ne_nil_of_reads hc reads noNewline)
    refine .lexeme (next_extend (.inr hc) next) noNewline ?_ (ih hc')
    rw [continuation?_extend hc', stops, Option.map_none]

/-- **Where a text ends its line, a directive line is the same in a longer text.** -/
theorem readLine_extend {after : Cursor} {line : Directive.Line} (hc : more = [] ∨ EndsLine c.rest)
    (h : Directive.readLine c = .ok (line, after)) :
    Directive.readLine (c.extend more) = .ok (line, after.extend more) := by
  rcases hc with rfl | hc
  · rwa [extend_nil, extend_nil]
  obtain ⟨text, rest, htext⟩ := Directive.readLine_eq_ok h
  rw [Directive.readLine, Directive.readsRest_iff.2 (readsRest_extend hc rest more)]
  cases line
  cases htext
  rfl

end Cursor

end ShaderPass.Lexeme
