import ShaderPass.Proofs.Lexeme.Rescan
import ShaderPass.Proofs.Lexeme.Words

/-!
# Proofs/Lexeme/LineStart — coming to the start of a line

    a // b ⏎ ␣ /* c */ # …
             └ starts ─┘▲ the reading comes here, and a line starts

A line starts at the beginning of a text and after each line end, and still does after blanks and
block comments.  A reading **comes to** a cursor at the start of a line when only such lexemes are
read between the line end and the cursor.  The text of some lexemes is read up to a directive after
it just as these say, as long as their comments are the comments of the text
(`comesTo_of_lexemes`): blanks, names and numbers that stand one right after the other come back as
others, which changes nothing of where lines start.
-/

namespace ShaderPass.Lexeme

variable {c c' d : Cursor} {b b' : Bool} {l : Lexeme} {ls : List Lexeme}

/-- Whether a line starts after a lexeme that has one start before it or not. -/
def startsLine (b : Bool) (l : Lexeme) : Bool :=
  l.kind == .newline || b && (l.kind == .whitespace || l.kind == .blockComment)

theorem startsLine_mono (hb : b = true → b' = true) (h : l.startsLine b = true) :
    l.startsLine b' = true := by
  rw [startsLine, Bool.or_eq_true, Bool.and_eq_true] at h ⊢
  exact h.imp_right (And.imp_left hb)

/-- No line starts after what is neither a line end nor blank. -/
theorem startsLine_of_not_blank
    (h : l.kind ≠ .newline ∧ l.kind ≠ .whitespace ∧ l.kind ≠ .blockComment) :
    l.startsLine b = false := by
  rw [startsLine, beq_false_of_ne h.1, beq_false_of_ne h.2.1, beq_false_of_ne h.2.2]
  exact Bool.and_false b

theorem startsLine_of_isSignificant (h : l.isSignificant = true) : l.startsLine b = false := by
  refine startsLine_of_not_blank ⟨?_, ?_, ?_⟩
  all_goals
    intro hk
    rw [isSignificant, isTrivia, hk] at h
    cases h

theorem startsLine_newline (b : Bool) (hk : l.kind = .newline) : l.startsLine b = true := by
  rw [startsLine, hk]
  rfl

/-- Blanks and block comments change nothing. -/
theorem startsLine_of_isTrivia (htrivia : l.isTrivia = true) (hk : l.kind ≠ .lineComment) :
    l.startsLine b = b := by
  rw [startsLine]
  cases h : l.kind with
  | whitespace | blockComment => exact Bool.and_true b
  | lineComment => exact absurd h hk
  | newline | identifier | number | stringLiteral | charLiteral | punct =>
    rw [isTrivia, h] at htrivia
    cases htrivia

/-- Only a line end starts a line where none has started. -/
theorem eq_true_of_startsLine (hk : l.kind ≠ .newline) (h : l.startsLine b = true) : b = true := by
  rw [startsLine, beq_false_of_ne hk, Bool.false_or, Bool.and_eq_true] at h
  exact h.1

theorem foldl_startsLine_mono (hb : b = true → b' = true) (h : ls.foldl startsLine b = true) :
    ls.foldl startsLine b' = true := by
  induction ls generalizing b b' with
  | nil => exact hb h
  | cons l ls ih => exact ih (startsLine_mono hb) h

/-- Whether the strict reading from a cursor, where a line starts or not, comes to another cursor at
the start of a line. -/
inductive Cursor.ComesTo (d : Cursor) : Bool → Cursor → Prop
  | here : ComesTo d true d
  | read {b : Bool} {c c' : Cursor} {l : Lexeme} (next : c.next .strict = .ok (some (l, c')))
      (more : ComesTo d (l.startsLine b) c') : ComesTo d b c

namespace Cursor

theorem ComesTo.mono (h : ComesTo d b c) (hb : b = true → b' = true) : ComesTo d b' c := by
  induction h generalizing b' with
  | here => exact hb rfl ▸ .here
  | read next _ ih => exact .read next (ih (startsLine_mono hb))

theorem next_of_head (hc : c.rest.head? = some '#') :
    c.next .strict = .ok (some (⟨.punct, "#"⟩, c.skip 1)) := by
  obtain ⟨text, hc⟩ : ∃ text, c.rest = '#' :: text := List.head?_eq_some_iff.1 hc
  have hform : Form.form ('#' :: text) = (.punct, 1) :=
    Form.form_punct (by decide) (by decide) (by decide) (by decide) (by decide) (by decide)
      (by decide) (by decide) text
  exact next_iff.2 ⟨⟨nofun, hc ▸ hform, fun _ => hc ▸ rfl⟩, ⟨text, hc.symm⟩, rfl⟩

theorem ComesTo.offset_le (h : ComesTo d b c) : c.location.offset ≤ d.location.offset := by
  induction h with
  | here => exact Nat.le_refl _
  | read next _ ih => exact Nat.le_trans (Nat.le_of_lt (reads_of_next next).offset_lt) ih

/-- What is read from a cursor that is not yet where the reading comes to. -/
theorem ComesTo.of_next (h : ComesTo d b c) (hd : d.rest.head? = some '#')
    (next : c.next .strict = .ok (some (l, c'))) (hl : l.kind ≠ .punct) :
    ComesTo d (l.startsLine b) c' := by
  obtain _ | ⟨next', more⟩ := h
  · cases (next_of_head hd).symm.trans next
    exact absurd rfl hl
  · cases next'.symm.trans next
    exact more

/-- The lexeme that a text begins with, if it is a line end or blanks. -/
theorem next_of_blank {k : Kind} {n : Nat} (hform : Form.form c.rest = (k, n)) (hne : c.rest ≠ [])
    (hk : k ≠ .punct) :
    c.next .strict = .ok (some (⟨k, String.ofList (c.rest.take n)⟩, c.skip n)) := by
  rw [next, if_neg hne, hform]
  dsimp only
  rw [if_neg hk]

/-- Whether some characters are those from a cursor up to another. -/
structure Before (u : List Char) (c d : Cursor) : Prop where
  rest : c.rest = u ++ d.rest
  skip : c.skip u.length = d

namespace Before

variable {u v : List Char}

theorem nil : Before [] c c := ⟨rfl, by rw [Cursor.skip]; rfl⟩

/-- A cursor is before another if its text begins with what is between them. -/
theorem of_rest (h : c.rest = u ++ v) : Before u c (c.skip u.length) ∧ (c.skip u.length).rest = v := by
  have hrest := Cursor.rest_skip h
  exact ⟨⟨by rw [hrest, h], rfl⟩, hrest⟩

theorem after (h : Before (u ++ v) c d) : Before v (c.skip u.length) d := by
  refine ⟨Cursor.rest_skip (by rw [h.rest, List.append_assoc]), ?_⟩
  rw [Cursor.skip_skip, ← List.length_append]
  exact h.skip

theorem eq (h : Before [] c d) : c = d := by
  rw [← h.skip]
  exact nil.skip.symm

theorem ne_nil {x : Char} (h : Before (x :: u) c d) : c.rest ≠ [] := by
  rw [h.rest]
  exact List.cons_ne_nil _ _

end Before

theorem carries_comesTo (hd : d.rest.head? = some '#') : Carries (ComesTo d) := by
  refine ⟨fun {b c k n} hform hne hk => ?_⟩
  have hpunct : k ≠ .punct := by
    obtain rfl | rfl := hk <;> decide
  have next := next_of_blank hform hne hpunct
  have hstarts : (⟨k, String.ofList (c.rest.take n)⟩ : Lexeme).startsLine b =
      (k == .newline || b) := by
    obtain rfl | rfl := hk
    · rfl
    · exact Bool.and_true b
  rw [← hstarts]
  exact ⟨fun h => h.of_next hd next hpunct, .read next⟩

end Cursor

/-! ## The text of some lexemes -/

open Cursor (ComesTo Before)

/-- Whether the next line feed among some lexemes is that of a line end. -/
def LineEndsNext : List Lexeme → Prop
  | [] => True
  | l :: ls => l.kind = .newline ∨ '\n' ∉ l.text.toList ∧ LineEndsNext ls

/-- Whether the comments among some lexemes are the comments of their text: no slash begins one with
what comes after it, and the line of a line comment ends with a line end. -/
def CommentsStay : List Lexeme → Prop
  | [] => True
  | l :: ls => (l.isPunct '/' = true → l.runsOn (chars ls) = false) ∧
      (l.kind = .lineComment → LineEndsNext ls) ∧ CommentsStay ls

instance decidableLineEndsNext : (ls : List Lexeme) → Decidable (LineEndsNext ls)
  | [] => .isTrue trivial
  | l :: ls =>
    have := decidableLineEndsNext ls
    inferInstanceAs (Decidable (l.kind = .newline ∨ '\n' ∉ l.text.toList ∧ LineEndsNext ls))

instance decidableCommentsStay : (ls : List Lexeme) → Decidable (CommentsStay ls)
  | [] => .isTrue trivial
  | l :: ls =>
    have := decidableCommentsStay ls
    inferInstanceAs (Decidable ((l.isPunct '/' = true → l.runsOn (chars ls) = false) ∧
      (l.kind = .lineComment → LineEndsNext ls) ∧ CommentsStay ls))

variable {u v : List Char}

theorem startsLine_of_isWordKind (h : Form.IsWordKind l.kind) : l.startsLine b = false := by
  refine startsLine_of_not_blank ?_
  obtain h | h | h := h <;> rw [h] <;> decide

/-- What is made of word characters goes no further than these do. -/
theorem prefix_of_wordPart {w : List Char} (hw : ∀ x ∈ w, Form.isWordPart x = true)
    (hv : ∀ x ∈ v.head?, Form.isWordPart x = false) (h : w <+: u ++ v) : w <+: u := by
  obtain ⟨t, ht⟩ := h
  obtain ⟨a, ha, -⟩ | ⟨a, rfl, rfl⟩ := List.append_eq_append_iff.1 ht
  · exact ⟨a, ha.symm⟩
  · cases a with
    | nil => exact ⟨[], (List.append_nil _).trans (List.append_nil u)⟩
    | cons y a =>
      have hy := hw y (List.mem_append_right _ List.mem_cons_self)
      exact absurd ((hv y rfl).symm.trans hy) Bool.false_ne_true

/-- Names and numbers are read over, whatever they come back as. -/
theorem comesTo_words (hu : ∀ x ∈ u, Form.isWordPart x = true) (hc : Before (u ++ v) c d)
    (hv : ∀ x ∈ (v ++ d.rest).head?, Form.isWordPart x = false)
    (h : ComesTo d false (c.skip u.length)) : ComesTo d false c := by
  induction hn : u.length using Nat.strongRecOn generalizing u c with
  | ind n ih =>
    subst hn
    cases u with
    | nil =>
      have hskip : c.skip 0 = c := Before.nil.skip
      rwa [List.length_nil, hskip] at h
    | cons x u =>
      obtain ⟨hx, -⟩ := List.forall_mem_cons.1 hu
      have hrest : c.rest = (x :: u) ++ (v ++ d.rest) := by rw [hc.rest, List.append_assoc]
      obtain ⟨l, c', next, hkind, hpart⟩ := next_of_wordPart hrest hx
      have hread := Cursor.reads_of_next next
      obtain ⟨w, hw⟩ := prefix_of_wordPart hpart hv ⟨c'.rest, hread.rest.symm.trans hrest⟩
      have hlt : w.length < (x :: u).length := by
        have hpos := List.length_pos_iff.2 fun he => hread.nonempty (String.toList_eq_nil_iff.1 he)
        rw [← hw, List.length_append]
        omega
      obtain rfl := (next_iff.1 next).2.2
      refine .read next ((startsLine_of_isWordKind hkind).symm ▸ ?_)
      rw [← hw, List.append_assoc] at hc
      rw [← hw, List.length_append, ← Cursor.skip_skip] at h
      refine ih _ hlt (fun y hy => hu y ?_) hc.after h rfl
      rw [← hw]
      exact List.mem_append_right _ hy

/-- A lexeme that is read back is read over. -/
theorem comesTo_cons (hl : l.IsWhole) (hw : l.kind ≠ .whitespace) (hcomment : l.kind ≠ .lineComment)
    (hc : Before (l.text.toList ++ u) c d) (hapart : l.runsOn (u ++ d.rest) = false)
    (h : ComesTo d (l.startsLine b) (c.skip l.text.toList.length)) : ComesTo d b c := by
  have hrest : c.rest = l.text.toList ++ (u ++ d.rest) := by rw [hc.rest, List.append_assoc]
  refine .read (next_iff.2 ⟨?_, ⟨_, hrest.symm⟩, rfl⟩) h
  rw [hrest]
  exact (Form.begins_append hw hcomment).2 ⟨hl, hapart⟩

/-- Blanks are read over, although they come back together. -/
theorem comesTo_whitespace (hd : d.rest.head? = some '#') (hl : l.IsWhole)
    (hw : l.kind = .whitespace) (hc : Before (l.text.toList ++ u) c d)
    (h : ComesTo d b (c.skip l.text.toList.length)) : ComesTo d b c :=
  (Cursor.carries_comesTo hd).spaces (by rw [hc.rest, List.append_assoc])
    (isSpace_of_isWhole hl hw) h

/-- A line comment is read over, up to the end of its line. -/
theorem comesTo_lineComment (hl : l.IsWhole) (hcomment : l.kind = .lineComment) {u : List Char}
    (hc : Before (l.text.toList ++ u) c d) (hu : '\n' ∈ u)
    (h : ∀ c', Before (u.dropWhile (· != '\n')) c' d → ComesTo d false c') : ComesTo d b c := by
  have hend : ¬∀ x ∈ u, (x != '\n') = true := fun hall => absurd (hall _ hu) (by decide)
  have htake : (u ++ d.rest).takeWhile (· != '\n') = u.takeWhile (· != '\n') := by
    rw [List.takeWhile_append, if_neg]
    intro hlength
    exact hend fun x hx => List.all_eq_true.1 (List.all_takeWhile) x
      ((List.takeWhile_prefix _).eq_of_length hlength ▸ hx)
  have hform := form_of_isWhole_lineComment hl hcomment (u ++ d.rest)
  rw [htake, ← List.append_assoc, ← hc.rest] at hform
  have hne : c.rest ≠ [] := by
    rw [hc.rest, List.append_assoc]
    exact List.append_ne_nil_of_left_ne_nil hl.1 _
  refine .read (Cursor.next_of_blank hform hne (by decide))
    ((h _ (Before.after ?_)).mono Bool.false_ne_true.elim)
  rwa [List.append_assoc, List.takeWhile_append_dropWhile]

/-- From its line feed, a line end is read over. -/
theorem comesTo_lineFeed (hl : l.IsWhole) (hk : l.kind = .newline)
    (hc : Before ((chars (l :: ls)).dropWhile (· != '\n')) c d)
    (h : ∀ c', Before (chars ls) c' d → ComesTo d true c') : ComesTo d b c := by
  have hdrop : (chars (l :: ls)).dropWhile (· != '\n') = '\n' :: chars ls := by
    obtain ht | ht := text_of_newline hl hk <;> rw [chars_cons, ht] <;> rfl
  rw [hdrop] at hc
  have hform : Form.form c.rest = (.newline, 1) := by
    rw [hc.rest]
    exact Form.form_newline _
  exact .read (Cursor.next_of_blank hform hc.ne_nil (by decide)) (h _ (Before.after (u := ['\n']) hc))

/-- Where a line starts after some lexemes although none starts before them, there is a line end. -/
theorem mem_chars_of_foldl_startsLine (hwhole : ∀ l ∈ ls, l.IsWhole)
    (h : ls.foldl startsLine false = true) : '\n' ∈ chars ls := by
  induction ls with
  | nil => cases h
  | cons l ls ih =>
    rw [List.forall_mem_cons] at hwhole
    rw [chars_cons, List.mem_append]
    by_cases hk : l.kind = .newline
    · refine .inl ?_
      obtain ht | ht := text_of_newline hwhole.1 hk <;> rw [ht] <;> decide
    · have hstarts : l.startsLine false = false := by
        rw [startsLine, beq_false_of_ne hk]
        rfl
      rw [List.foldl_cons, hstarts] at h
      exact .inr (ih hwhole.2 h)

theorem isSignificant_of_isPunct {y : Char} (h : l.isPunct y = true) : l.isSignificant = true := by
  rw [isSignificant, isTrivia, beq_iff_eq.1 (Bool.and_eq_true_iff.1 h).1]
  rfl

theorem runsOn_append (hu : u ≠ []) : l.runsOn (u ++ v) = l.runsOn u := by
  cases u with
  | nil => exact absurd rfl hu
  | cons x u => rfl

/-- A lexeme that is neither a name nor a number runs on only as a slash that begins a comment. -/
theorem runsOn_of_not_name (hl : l.IsWhole) {x : Char} {text : List Char}
    (hx : l.text.toList = x :: text) (hpart : Form.isWordPart x = false)
    (hslash : l.isPunct '/' = true → l.runsOn v = false) : l.runsOn v = false := by
  obtain ⟨hidentifier, hnumber⟩ := not_name_of_isWhole hl hx hpart
  cases hk : l.kind with
  | identifier => exact absurd hk hidentifier
  | number => exact absurd hk hnumber
  | newline | whitespace | lineComment | blockComment | stringLiteral | charLiteral =>
    rw [runsOn, hk]
    exact Form.runsOn_closed (fun _ _ => rfl) _ _
  | punct =>
    have hlength : l.text.toList.length = 1 := by
      have hform := Form.punct_of_form ((congrArg Prod.fst hl.2.1).trans hk)
      rwa [hl.2.1] at hform
    obtain rfl : text = [] := List.length_eq_zero_iff.1 (by simpa [hx] using hlength)
    by_cases hs : x = '/'
    · refine hslash (Bool.and_eq_true_iff.2 ⟨beq_iff_eq.2 hk, beq_iff_eq.2 ?_⟩)
      exact String.toList_injective (by rw [hx, hs]; rfl)
    · have hdot : x ≠ '.' := by
        rintro rfl
        exact absurd hpart (by decide)
      rw [runsOn, hk, hx]
      cases v with
      | nil => rfl
      | cons y v => simp [Form.runsOn, Form.runsInto, hs, hdot]

/-- A lexeme that is neither a name nor a number is read over where the text after it is read, which
after a line comment begins at the end of the line. -/
theorem comesTo_lexeme (hd : d.rest.head? = some '#') (hl : l.IsWhole) {x : Char} {text : List Char}
    (hx : l.text.toList = x :: text) (hpart : Form.isWordPart x = false)
    (hls : ∀ l ∈ ls, l.IsWhole) (hstarts : ls.foldl startsLine (l.startsLine b) = true)
    (hslash : l.isPunct '/' = true → l.runsOn (chars ls) = false)
    (hc : Before (l.text.toList ++ chars ls) c d)
    (hmore : ∀ c', Before (chars ls) c' d → ComesTo d (l.startsLine b) c')
    (hline : l.kind = .lineComment →
      ∀ c', Before ((chars ls).dropWhile (· != '\n')) c' d → ComesTo d (l.startsLine b) c') :
    ComesTo d b c := by
  have hrest := hmore _ hc.after
  by_cases hw : l.kind = .whitespace
  · exact comesTo_whitespace hd hl hw hc (hrest.mono (eq_true_of_startsLine (by simp [hw])))
  by_cases hlc : l.kind = .lineComment
  · have hfalse : l.startsLine b = false := startsLine_of_not_blank (by simp [hlc])
    rw [hfalse] at hstarts hline
    exact comesTo_lineComment hl hlc hc (mem_chars_of_foldl_startsLine hls hstarts) (hline hlc)
  refine comesTo_cons hl hw hlc hc (runsOn_of_not_name hl hx hpart fun hs => ?_) hrest
  rw [startsLine_of_isSignificant (isSignificant_of_isPunct hs)] at hstarts
  have hne : chars ls ≠ [] := List.ne_nil_of_mem (mem_chars_of_foldl_startsLine hls hstarts)
  exact (runsOn_append hne).trans (hslash hs)

/-- **The text of some lexemes is read up to the start of a line after it** as long as their comments
are the comments of the text.  A name or a number before the lexemes may go on into them. -/
theorem comesTo_of_lexemes (hd : d.rest.head? = some '#') (hwhole : ∀ l ∈ ls, l.IsWhole)
    (hcomments : CommentsStay ls) (hstarts : ls.foldl startsLine b = true) :
    (∀ (u : List Char) (c : Cursor), (∀ x ∈ u, Form.isWordPart x = true) → (u ≠ [] → b = false) →
        Before (u ++ chars ls) c d → ComesTo d b c) ∧
      (LineEndsNext ls → ∀ c, Before ((chars ls).dropWhile (· != '\n')) c d → ComesTo d b c) := by
  induction ls generalizing b with
  | nil =>
    obtain rfl : b = true := hstarts
    refine ⟨fun u c _ hu hc => ?_, fun _ c hc => hc.eq ▸ .here⟩
    cases u with
    | nil => exact hc.eq ▸ .here
    | cons x u => cases hu (List.cons_ne_nil x u)
  | cons l ls ih =>
    rw [List.forall_mem_cons] at hwhole
    obtain ⟨hl, hls⟩ := hwhole
    obtain ⟨hslash, hcomment, hcomments⟩ := hcomments
    rw [List.foldl_cons] at hstarts
    obtain ⟨ih, ihLine⟩ := ih hls hcomments hstarts
    constructor
    · intro u c hu hb hc
      obtain ⟨x, text, hx⟩ := List.exists_cons_of_ne_nil hl.1
      cases hpart : Form.isWordPart x with
      | true =>
        obtain ⟨hkind, hword⟩ := wordPart_of_isWhole hl hx hpart
        have hfalse : l.startsLine b = false := startsLine_of_isWordKind hkind
        rw [hfalse] at ih
        rw [chars_cons, ← List.append_assoc] at hc
        refine (ih _ c ?_ (fun _ => rfl) hc).mono Bool.false_ne_true.elim
        exact List.forall_mem_append.2 ⟨hu, hword⟩
      | false =>
        have hhead : ∀ y ∈ (chars (l :: ls) ++ d.rest).head?, Form.isWordPart y = false := by
          rw [chars_cons, hx]
          rintro y ⟨⟩
          exact hpart
        have hmore : ComesTo d b (c.skip u.length) :=
          comesTo_lexeme hd hl hx hpart hls hstarts hslash hc.after
            (fun c' => ih [] c' (List.forall_mem_nil _) (absurd rfl)) fun hlc => ihLine (hcomment hlc)
        cases u with
        | nil =>
          have hskip : c.skip 0 = c := Before.nil.skip
          rwa [List.length_nil, hskip] at hmore
        | cons y u =>
          obtain rfl := hb (List.cons_ne_nil y u)
          exact comesTo_words hu hc hhead hmore
    · rintro (hk | ⟨hlf, hnext⟩) c hc
      · exact comesTo_lineFeed hl hk hc fun c' hc' =>
          (startsLine_newline b hk) ▸ ih [] c' (List.forall_mem_nil _) (absurd rfl) hc'
      · have hall : ∀ x ∈ l.text.toList, (x != '\n') = true := fun x hx =>
          bne_iff_ne.2 fun he => hlf (he ▸ hx)
        rw [chars_cons, List.dropWhile_append_of_pos hall] at hc
        refine (ihLine hnext c hc).mono (eq_true_of_startsLine ?_)
        rintro hk
        obtain ht | ht := text_of_newline hl hk <;> simp [ht] at hlf

end ShaderPass.Lexeme
