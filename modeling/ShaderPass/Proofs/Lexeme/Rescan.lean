import ShaderPass.Proofs.Lexeme.Apart

/-!
# Proofs/Lexeme/Rescan — the text of some lexemes, read again

    lexemes   a   ␣   ␣   /* … */   +   b
    text      a␣␣/* … */+b
    read      a   ␣␣  /* … */       +   b

Neighbouring blanks come back as one, so what is compared is the **significant** lexemes, each with
the offset it stands at.  They all come back, and nothing else does, if and only if none of them runs
on into the text after it (`yields_places_iff`), where nothing but blanks comes between a line
comment and the end of its line.
-/

namespace ShaderPass

open Text (byteLength)

namespace Lexeme

/-- Whether this is neither trivia nor a line end. -/
def isSignificant (l : Lexeme) : Bool := l.kind != .newline && !l.isTrivia

/-- The characters of some lexemes. -/
def chars (ls : List Lexeme) : List Char := ls.flatMap (·.text.toList)

@[simp] theorem chars_cons (l : Lexeme) (ls : List Lexeme) :
    chars (l :: ls) = l.text.toList ++ chars ls := rfl

@[simp] theorem chars_append (ls ms : List Lexeme) : chars (ls ++ ms) = chars ls ++ chars ms :=
  List.flatMap_append

/-- The significant ones among some lexemes, each with the offset it stands at. -/
def places (offset : Nat) : List Lexeme → List (Lexeme × Nat)
  | [] => []
  | l :: ls =>
    if l.isSignificant then (l, offset) :: places (offset + byteLength l.text.toList) ls
    else places (offset + byteLength l.text.toList) ls

/-- Whether a lexeme runs on into the rest of a text. -/
def runsOn (l : Lexeme) (rest : List Char) : Bool := Form.runsOn l.kind l.text.toList rest

/-- Whether none of the significant ones among some lexemes runs on into the text after it. -/
def StandApart : List Lexeme → Prop
  | [] => True
  | l :: ls => (l.isSignificant = true → l.runsOn (chars ls) = false) ∧ StandApart ls

/-- Whether nothing but blanks and comments within the line comes before the next line end. -/
def BlankToLineEnd : List Lexeme → Prop
  | [] => True
  | l :: ls => l.kind = .newline ∨ l.isTrivia = true ∧ '\n' ∉ l.text.toList ∧ BlankToLineEnd ls

/-- Whether the line ends after each line comment. -/
def CommentsEndLines : List Lexeme → Prop
  | [] => True
  | l :: ls => (l.kind = .lineComment → BlankToLineEnd ls) ∧ CommentsEndLines ls

instance decidableStandApart : (ls : List Lexeme) → Decidable (StandApart ls)
  | [] => .isTrue trivial
  | l :: ls =>
    have := decidableStandApart ls
    inferInstanceAs (Decidable ((l.isSignificant = true → l.runsOn (chars ls) = false) ∧ _))

instance decidableBlankToLineEnd : (ls : List Lexeme) → Decidable (BlankToLineEnd ls)
  | [] => .isTrue trivial
  | l :: ls =>
    have := decidableBlankToLineEnd ls
    inferInstanceAs (Decidable (l.kind = .newline ∨ l.isTrivia = true ∧ '\n' ∉ l.text.toList ∧ _))

instance decidableCommentsEndLines : (ls : List Lexeme) → Decidable (CommentsEndLines ls)
  | [] => .isTrue trivial
  | l :: ls =>
    have := decidableCommentsEndLines ls
    inferInstanceAs (Decidable ((l.kind = .lineComment → BlankToLineEnd ls) ∧ _))

end Lexeme

namespace Lexeme.Cursor

/-! ## What is read from a cursor -/

/-- Whether some lexemes, at some offsets, are the significant ones that are read from a cursor to
the end of the text. -/
def Yields (c : Cursor) (ps : List (Lexeme × Nat)) : Prop :=
  ∃ ls stop, c.lexemes .strict = (ls, stop, none) ∧
    (ls.filter (·.1.isSignificant)).map (fun r => (r.1, r.2.offset)) = ps

variable {c c' d : Cursor} {l : Lexeme} {ps : List (Lexeme × Nat)} {mode : Mode}

theorem lexemes_of_next (h : c.next mode = .ok (some (l, c'))) :
    c.lexemes mode = ((l, c.location) :: (c'.lexemes mode).1, (c'.lexemes mode).2) := by
  rw [lexemes]
  split
  next h' => cases h.symm.trans h'
  next h' => cases h.symm.trans h'
  next h' =>
    cases h.symm.trans h'
    rfl

theorem lexemes_of_fault {fault : Fault} (h : c.next mode = .error fault) :
    c.lexemes mode = ([], c, some fault) := by
  rw [lexemes]
  split
  next h' =>
    cases h.symm.trans h'
    rfl
  next h' => cases h.symm.trans h'
  next h' => cases h.symm.trans h'

theorem lexemes_of_atEnd (h : c.next mode = .ok none) : c.lexemes mode = ([], c, none) := by
  rw [lexemes]
  split
  next h' => cases h.symm.trans h'
  next => rfl
  next h' => cases h.symm.trans h'

theorem yields_end (h : c.rest = []) : c.Yields [] :=
  ⟨[], c, lexemes_of_atEnd (by rw [next, if_pos h]), rfl⟩

theorem yields_significant (h : c.next .strict = .ok (some (l, c'))) (hl : l.isSignificant = true)
    (hc : c'.Yields ps) : c.Yields ((l, c.location.offset) :: ps) := by
  obtain ⟨ls, stop, hls, rfl⟩ := hc
  refine ⟨(l, c.location) :: ls, stop, ?_, ?_⟩
  · rw [lexemes_of_next h, hls]
  · rw [List.filter_cons_of_pos (a := (l, c.location)) hl, List.map_cons]

theorem yields_insignificant (h : c.next .strict = .ok (some (l, c')))
    (hl : l.isSignificant = false) : c.Yields ps ↔ c'.Yields ps := by
  constructor
  · rintro ⟨ls, stop, hls, rfl⟩
    rw [lexemes_of_next h, Prod.mk.injEq] at hls
    obtain ⟨rfl, hstop⟩ := hls
    refine ⟨_, stop, Prod.ext rfl hstop, ?_⟩
    rw [List.filter_cons_of_neg (by rw [hl]; exact Bool.false_ne_true)]
  · rintro ⟨ls, stop, hls, rfl⟩
    refine ⟨(l, c.location) :: ls, stop, ?_, ?_⟩
    · rw [lexemes_of_next h, hls]
    · rw [List.filter_cons_of_neg (by rw [hl]; exact Bool.false_ne_true)]

/-- What is read from a cursor is read at one of the cursors of its text. -/
theorem exists_next_of_mem {text : String} {c : Cursor} (hc : c.In text) :
    ∀ r ∈ (c.lexemes mode).1, ∃ c₁ c₂ : Cursor, c₁.In text ∧
      c₁.next mode = .ok (some (r.1, c₂)) ∧ c₁.location = r.2 := by
  induction c using lexemes.induct mode with
  | case1 c fault h =>
    rw [lexemes_of_fault h]
    exact List.forall_mem_nil _
  | case2 c h =>
    rw [lexemes_of_atEnd h]
    exact List.forall_mem_nil _
  | case3 c l c' h _ _ _ _ ih =>
    intro r hr
    rw [lexemes_of_next h] at hr
    rcases List.mem_cons.1 hr with rfl | hr
    · exact ⟨c, c', hc, h, rfl⟩
    · exact ih (hc.next h) r hr

theorem exists_next_of_yields {text : String} (hc : c.In text) (h : c.Yields ps) : ∀ r ∈ ps,
    ∃ c₁ c₂ : Cursor, c₁.In text ∧ c₁.next .strict = .ok (some (r.1, c₂)) ∧
      c₁.location.offset = r.2 := by
  obtain ⟨ls, stop, hls, rfl⟩ := h
  intro r hr
  obtain ⟨q, hq, rfl⟩ := List.mem_map.1 hr
  have hmem : q ∈ (c.lexemes .strict).1 := by
    rw [hls]
    exact (List.mem_filter.1 hq).1
  obtain ⟨c₁, c₂, hin, hnext, hloc⟩ := exists_next_of_mem hc q hmem
  exact ⟨c₁, c₂, hin, hnext, congrArg Location.offset hloc⟩

/-! ## Blanks -/

theorem skip_skip (c : Cursor) (m n : Nat) : (c.skip m).skip n = c.skip (m + n) := by
  rw [skip, skip, skip, Cursor.mk.injEq]
  constructor
  · exact List.drop_drop
  · rw [List.take_add, Location.advanceAll_append]

/-- A reading of a text that begins with a line end, or with blanks up to it, goes on after it. -/
theorem yields_of_form {k : Kind} {n : Nat} (hform : Form.form c.rest = (k, n)) (hne : c.rest ≠ [])
    (hk : k = .newline ∨ k.isTrivia = true) : c.Yields ps ↔ (c.skip n).Yields ps := by
  have hpunct : k ≠ .punct := by
    rintro rfl
    rcases hk with hk | hk <;> cases hk
  have hnext : c.next .strict = .ok (some (⟨k, String.ofList (c.rest.take n)⟩, c.skip n)) := by
    rw [next, if_neg hne, hform]
    dsimp only
    rw [if_neg hpunct]
  refine yields_insignificant hnext ?_
  rcases hk with rfl | hk
  · rfl
  · rw [isSignificant, isTrivia, hk, Bool.not_true, Bool.and_false]

/-- A blank character that begins a line end is a carriage return. -/
theorem eq_crlf {x : Char} {text : List Char} (hx : Form.isSpace x = true)
    (h : Form.newline (x :: text) ≠ 0) : x = '\r' ∧ ∃ rest, text = '\n' :: rest := by
  unfold Form.newline at h
  split at h
  next he =>
    obtain ⟨rfl, htext⟩ := List.cons.inj he
    exact ⟨rfl, _, htext⟩
  next he =>
    obtain ⟨rfl, -⟩ := List.cons.inj he
    exact absurd hx (by decide)
  next => exact absurd rfl h

theorem rest_skip {u text : List Char} (h : c.rest = u ++ text) : (c.skip u.length).rest = text := by
  rw [skip, h]
  exact List.drop_left

/-- Whether what is known of a cursor, at the start of a line or not, is known after the blanks or the
line end that its text begins with just as well. -/
structure Carries (P : Bool → Cursor → Prop) : Prop where
  after : ∀ {b : Bool} {c : Cursor} {k : Kind} {n : Nat}, Form.form c.rest = (k, n) → c.rest ≠ [] →
    k = .newline ∨ k = .whitespace → (P b c ↔ P (k == .newline || b) (c.skip n))

theorem carries_yields (ps : List (Lexeme × Nat)) : Carries fun _ c => c.Yields ps :=
  ⟨fun hform hne hk => yields_of_form hform hne (hk.imp_right (congrArg Kind.isTrivia))⟩

/-- A blank character in front changes nothing, although blanks come back together. -/
theorem Carries.space {P : Bool → Cursor → Prop} (carries : Carries P) {b : Bool} {x : Char}
    {text : List Char} (hc : c.rest = x :: text) (hx : Form.isSpace x = true)
    (h : P b (c.skip 1)) : P b c := by
  have hne : c.rest ≠ [] := by
    rw [hc]
    exact List.cons_ne_nil _ _
  have hrest : (c.skip 1).rest = text := rest_skip (u := [x]) hc
  by_cases hn : Form.newline (x :: text) = 0
  · have hform := Form.form_space hx hn
    rw [carries.after (hc ▸ hform) hne (.inr rfl)]
    cases text with
    | nil => exact h
    | cons y text =>
      have hne' : (c.skip 1).rest ≠ [] := by
        rw [hrest]
        exact List.cons_ne_nil _ _
      by_cases hy : Form.isSpace y = true
      · have hrun : Form.run Form.isSpace (y :: text) = Form.run Form.isSpace text + 1 := by
          rw [Form.run, List.takeWhile_cons_of_pos hy]
          rfl
        by_cases hn' : Form.newline (y :: text) = 0
        · have hform' := Form.form_space hy hn'
          rwa [carries.after (hrest ▸ hform') hne' (.inr rfl), skip_skip, Nat.add_comm, ← hrun] at h
        · obtain ⟨rfl, rest, rfl⟩ := eq_crlf hy hn'
          rw [carries.after (hrest ▸ Form.form_crlf rest) hne' (.inl rfl), skip_skip] at h
          have hrest' : (c.skip 2).rest = '\n' :: rest := rest_skip (u := [x, '\r']) hc
          have hlf := Form.form_newline rest
          have hne'' : (c.skip 2).rest ≠ [] := by
            rw [hrest']
            exact List.cons_ne_nil _ _
          exact (carries.after (hrest' ▸ hlf) hne'' (.inl rfl)).2 (by rwa [skip_skip])
      · rw [Form.run, List.takeWhile_cons_of_neg hy]
        exact h
  · obtain ⟨rfl, rest, rfl⟩ := eq_crlf hx hn
    have hne' : (c.skip 1).rest ≠ [] := by
      rw [hrest]
      exact List.cons_ne_nil _ _
    rw [carries.after (hrest ▸ Form.form_newline rest) hne' (.inl rfl), skip_skip] at h
    exact (carries.after (hc ▸ Form.form_crlf rest) hne (.inl rfl)).2 h

/-- Blanks in front change nothing. -/
theorem Carries.spaces {P : Bool → Cursor → Prop} (carries : Carries P) {b : Bool}
    {u text : List Char} (hc : c.rest = u ++ text) (hu : ∀ x ∈ u, Form.isSpace x = true)
    (h : P b (c.skip u.length)) : P b c := by
  induction u generalizing c with
  | nil => exact h
  | cons x u ih =>
    rw [List.forall_mem_cons] at hu
    have hrest : (c.skip 1).rest = u ++ text := rest_skip (u := [x]) hc
    refine carries.space hc hu.1 (ih hrest hu.2 ?_)
    rwa [skip_skip, Nat.add_comm]

/-! ## The text of some lexemes -/

theorem offset_skip {u text : List Char} (h : c.rest = u ++ text) :
    (c.skip u.length).location.offset = c.location.offset + byteLength u := by
  rw [skip, h, List.take_left]
  exact Location.offset_advanceAll _ _

end Lexeme.Cursor

namespace Lexeme

open Cursor (Yields)

variable {c : Cursor} {l : Lexeme} {ls : List Lexeme}

/-- What is read from a cursor at the text of some lexemes, if these are all. -/
def Rescans (ls : List Lexeme) : Prop :=
  ∀ c : Cursor, c.rest = chars ls → c.Yields (places c.location.offset ls)

/-- What is read from a cursor at the first line end in the text of some lexemes, if these are
all. -/
def RescansLine (ls : List Lexeme) : Prop :=
  ∀ (c : Cursor) (offset : Nat), c.rest = (chars ls).dropWhile (· != '\n') →
    c.location.offset = offset + byteLength ((chars ls).takeWhile (· != '\n')) →
    c.Yields (places offset ls)

theorem places_insignificant (h : l.isSignificant = false) (offset : Nat) (ls : List Lexeme) :
    places offset (l :: ls) = places (offset + byteLength l.text.toList) ls := by
  rw [places, h, if_neg Bool.false_ne_true]

/-- A lexeme that begins the text is read, and the reading goes on after it. -/
theorem next_of_begins (hc : c.rest = chars (l :: ls))
    (h : Form.Begins l.kind l.text.toList (chars (l :: ls))) :
    c.next .strict = .ok (some (l, c.skip l.text.toList.length)) :=
  next_iff.2 ⟨hc ▸ h, ⟨chars ls, hc.symm⟩, rfl⟩

/-- A lexeme that is whole and does not run on comes back. -/
theorem rescans_cons (hl : l.IsWhole) (hw : l.kind ≠ .whitespace) (hcomment : l.kind ≠ .lineComment)
    (hapart : l.runsOn (chars ls) = false) (h : Rescans ls) : Rescans (l :: ls) := by
  intro c hc
  have hnext := next_of_begins hc ((Form.begins_append hw hcomment).2 ⟨hl, hapart⟩)
  have hrest := h (c.skip l.text.toList.length) (Cursor.rest_skip hc)
  rw [Cursor.offset_skip hc] at hrest
  cases hs : l.isSignificant with
  | true =>
    rw [places, if_pos hs]
    exact Cursor.yields_significant hnext hs hrest
  | false =>
    rw [places_insignificant hs]
    exact (Cursor.yields_insignificant hnext hs).2 hrest

theorem isSpace_of_isWhole (hl : l.IsWhole) (hw : l.kind = .whitespace) :
    ∀ x ∈ l.text.toList, Form.isSpace x = true := by
  have hl : Form.Begins .whitespace l.text.toList (l.text.toList ++ []) := by
    rw [List.append_nil, ← hw]
    exact hl
  exact (Form.begins_whitespace hl).1

/-- Blanks do not come back as they are, but what comes after them does. -/
theorem rescans_spaces {gap : String} (hgap : ∀ x ∈ gap.toList, Form.isSpace x = true)
    (h : Rescans ls) : Rescans (⟨.whitespace, gap⟩ :: ls) := by
  intro c hc
  have hrest := h (c.skip gap.toList.length) (Cursor.rest_skip hc)
  rw [Cursor.offset_skip hc] at hrest
  rw [places_insignificant rfl]
  have carries := Cursor.carries_yields (places (c.location.offset + byteLength gap.toList) ls)
  exact carries.spaces (b := false) hc hgap hrest

theorem rescans_whitespace (hl : l.IsWhole) (hw : l.kind = .whitespace) (h : Rescans ls) :
    Rescans (l :: ls) := by
  have hspaces := rescans_spaces (isSpace_of_isWhole hl hw) h
  rwa [← hw] at hspaces

/-- A line comment takes all up to the end of its line. -/
theorem form_of_isWhole_lineComment (hl : l.IsWhole) (hcomment : l.kind = .lineComment)
    (rest : List Char) : Form.form (l.text.toList ++ rest) =
      (.lineComment, (l.text.toList ++ rest.takeWhile (· != '\n')).length) := by
  have hbegins : Form.Begins .lineComment l.text.toList (l.text.toList ++ []) := by
    rw [List.append_nil, ← hcomment]
    exact hl
  obtain ⟨⟨v, hv, hlf⟩, -⟩ := Form.begins_lineComment hbegins
  have hall : ∀ x ∈ v, (x != '\n') = true := fun x hx => bne_iff_ne.2 fun he => hlf (he ▸ hx)
  have hrun : Form.run (· != '\n') (v ++ rest) =
      v.length + (rest.takeWhile (· != '\n')).length := by
    rw [Form.run, List.takeWhile_append_of_pos hall, List.length_append]
  rw [hv]
  refine (Form.form_lineComment (v ++ rest)).trans ?_
  rw [hrun, List.length_append, List.length_cons, List.length_cons, Prod.mk.injEq]
  exact ⟨rfl, by omega⟩

/-- A line comment goes on to the end of the line. -/
theorem rescans_lineComment (hl : l.IsWhole) (hcomment : l.kind = .lineComment)
    (h : RescansLine ls) : Rescans (l :: ls) := by
  intro c hc
  have hform := form_of_isWhole_lineComment hl hcomment (chars ls)
  rw [← chars_cons, ← hc] at hform
  have hne : c.rest ≠ [] := by
    rw [hc, chars_cons]
    exact List.append_ne_nil_of_left_ne_nil hl.1 _
  have hsplit : c.rest = (l.text.toList ++ (chars ls).takeWhile (· != '\n')) ++
      (chars ls).dropWhile (· != '\n') := by
    rw [hc, List.append_assoc, List.takeWhile_append_dropWhile]
    rfl
  have hs : l.isSignificant = false := by
    rw [isSignificant, isTrivia, hcomment]
    rfl
  rw [places_insignificant hs, Cursor.yields_of_form hform hne (.inr rfl)]
  refine h _ _ (Cursor.rest_skip hsplit) ?_
  rw [Cursor.offset_skip hsplit, Text.byteLength_append, Nat.add_assoc]

/-- Within the line of a line comment, what has no line feed in it is passed over. -/
theorem rescansLine_cons (hs : l.isSignificant = false) (hlf : '\n' ∉ l.text.toList)
    (h : RescansLine ls) : RescansLine (l :: ls) := by
  intro c offset hc hoffset
  have hall : ∀ x ∈ l.text.toList, (x != '\n') = true := fun x hx =>
    bne_iff_ne.2 fun he => hlf (he ▸ hx)
  rw [chars_cons, List.dropWhile_append_of_pos hall] at hc
  rw [chars_cons, List.takeWhile_append_of_pos hall, Text.byteLength_append, ← Nat.add_assoc]
    at hoffset
  rw [places_insignificant hs]
  exact h c _ hc hoffset

/-- A line end is a line feed, or a carriage return and a line feed. -/
theorem text_of_newline (hl : l.IsWhole) (hk : l.kind = .newline) :
    l.text.toList = ['\n'] ∨ l.text.toList = ['\r', '\n'] := by
  obtain ⟨hne, hform, -⟩ := hl
  obtain ⟨hpos, hlength⟩ := Form.newline_of_form ((congrArg Prod.fst hform).trans hk)
  rw [hform] at hlength
  unfold Form.newline at hpos hlength
  split at hlength
  next text he =>
    rw [he] at hlength ⊢
    have htext : text = [] := List.length_eq_zero_iff.1 (by simpa using hlength)
    exact .inr (by rw [htext])
  next text he =>
    rw [he] at hlength ⊢
    have htext : text = [] := List.length_eq_zero_iff.1 (by simpa using hlength)
    exact .inl (by rw [htext])
  next => simp_all

theorem not_significant_newline (hk : l.kind = .newline) : l.isSignificant = false := by
  rw [isSignificant, hk]
  rfl

theorem runsOn_newline (hk : l.kind = .newline) (rest : List Char) : l.runsOn rest = false := by
  rw [runsOn, hk]
  exact Form.runsOn_closed (fun _ _ => rfl) _ _

/-- A line end and a block comment do not run on. -/
theorem runsOn_insignificant (hs : l.isSignificant = false) (hw : l.kind ≠ .whitespace)
    (hcomment : l.kind ≠ .lineComment) (rest : List Char) : l.runsOn rest = false := by
  rw [runsOn]
  cases hk : l.kind with
  | newline | blockComment => exact Form.runsOn_closed (fun _ _ => rfl) _ _
  | whitespace => exact absurd hk hw
  | lineComment => exact absurd hk hcomment
  | identifier | number | stringLiteral | charLiteral | punct =>
    rw [isSignificant, isTrivia, hk] at hs
    cases hs

/-- The line of a line comment ends at the next line end. -/
theorem rescansLine_newline (hl : l.IsWhole) (hk : l.kind = .newline) (h : Rescans ls) :
    RescansLine (l :: ls) := by
  intro c offset hc hoffset
  rcases text_of_newline hl hk with ht | ht
  · rw [chars_cons, ht] at hc hoffset
    have hcons : Rescans (l :: ls) := rescans_cons hl (by simp [hk]) (by simp [hk])
      (runsOn_newline hk _) h
    rw [show offset = c.location.offset from hoffset.symm]
    exact hcons c (by rw [hc, chars_cons, ht]; rfl)
  · rw [chars_cons, ht] at hc hoffset
    have hc : c.rest = '\n' :: chars ls := hc
    have hne : c.rest ≠ [] := by
      rw [hc]
      exact List.cons_ne_nil _ _
    have hskip : (c.skip 1).location.offset = c.location.offset + 1 :=
      Cursor.offset_skip (u := ['\n']) hc
    have hrest := h (c.skip 1) (Cursor.rest_skip (u := ['\n']) hc)
    have hoffset : c.location.offset = offset + 1 := hoffset
    rw [hskip, hoffset] at hrest
    rw [places_insignificant (not_significant_newline hk), ht]
    exact (Cursor.yields_of_form (hc ▸ Form.form_newline _) hne (.inl rfl)).2 hrest

/-- **The lexemes come back if none of the significant ones runs on**, and nothing but blanks comes
between a line comment and the end of its line. -/
theorem rescans_of_standApart (hwhole : ∀ l ∈ ls, l.IsWhole) (hapart : StandApart ls)
    (hcomments : CommentsEndLines ls) :
    Rescans ls ∧ (BlankToLineEnd ls → RescansLine ls) := by
  induction ls with
  | nil =>
    refine ⟨fun c hc => Cursor.yields_end hc, fun _ c offset hc _ => Cursor.yields_end hc⟩
  | cons l ls ih =>
    rw [List.forall_mem_cons] at hwhole
    obtain ⟨hl, hls⟩ := hwhole
    obtain ⟨hone, happart⟩ := hapart
    obtain ⟨hcomment, hcomments⟩ := hcomments
    obtain ⟨ih, ihLine⟩ := ih hls happart hcomments
    constructor
    · by_cases hw : l.kind = .whitespace
      · exact rescans_whitespace hl hw ih
      by_cases hc : l.kind = .lineComment
      · exact rescans_lineComment hl hc (ihLine (hcomment hc))
      refine rescans_cons hl hw hc ?_ ih
      cases hs : l.isSignificant with
      | true => exact hone hs
      | false => exact runsOn_insignificant hs hw hc _
    · rintro (hk | ⟨htrivia, hlf, hblank⟩)
      · exact rescansLine_newline hl hk ih
      · refine rescansLine_cons ?_ hlf (ihLine hblank)
        rw [isSignificant, htrivia, Bool.not_true, Bool.and_false]

/-! ## Where they come back, none runs on -/

/-- A text is at one place only at each offset. -/
theorem eq_of_byteLength {u u' v v' : List Char} (h : u ++ v = u' ++ v')
    (hlength : byteLength u = byteLength u') : v = v' := by
  induction u generalizing u' with
  | nil =>
    cases u' with
    | nil => exact h
    | cons x u' =>
      have := Char.utf8Size_pos x
      rw [byteLength, byteLength] at hlength
      omega
  | cons x u ih =>
    cases u' with
    | nil =>
      have := Char.utf8Size_pos x
      rw [byteLength, byteLength] at hlength
      omega
    | cons x' u' =>
      obtain ⟨rfl, htail⟩ := List.cons.inj h
      rw [byteLength, byteLength] at hlength
      exact ih htail (by omega)

/-- The significant lexemes of a text that come back at their offsets do not run on. -/
theorem standApart_of_mem {text : String} (pre : List Lexeme)
    (htext : text.toList = chars (pre ++ ls))
    (h : ∀ r ∈ places (byteLength (chars pre)) ls, ∃ c₁ c₂ : Cursor, c₁.In text ∧
      c₁.next .strict = .ok (some (r.1, c₂)) ∧ c₁.location.offset = r.2) : StandApart ls := by
  induction ls generalizing pre with
  | nil => exact trivial
  | cons l ls ih =>
    have htext' : text.toList = chars (pre ++ [l] ++ ls) := by rw [htext, List.append_cons]
    have hlength : byteLength (chars (pre ++ [l])) =
        byteLength (chars pre) + byteLength l.text.toList := by
      rw [chars_append, Text.byteLength_append, chars_cons]
      simp [chars]
    refine ⟨fun hs => ?_, ih _ htext' fun r hr => h r ?_⟩
    · rw [places, if_pos hs] at h
      obtain ⟨c₁, c₂, ⟨pre', hpre', hloc⟩, hnext, hoffset⟩ := h _ List.mem_cons_self
      rw [hloc, Location.offset_advanceAll] at hoffset
      have hoffset : 0 + byteLength pre' = byteLength (chars pre) := hoffset
      have hrest : c₁.rest = chars (l :: ls) := by
        rw [htext, chars_append] at hpre'
        exact (eq_of_byteLength hpre' (by omega)).symm
      have hbegins := (next_iff.1 hnext).1
      rw [hrest, chars_cons] at hbegins
      have hw : l.kind ≠ .whitespace := by
        rintro hk
        rw [isSignificant, isTrivia, hk] at hs
        cases hs
      have hc : l.kind ≠ .lineComment := by
        rintro hk
        rw [isSignificant, isTrivia, hk] at hs
        cases hs
      exact ((Form.begins_append hw hc).1 hbegins).2
    · rw [hlength] at hr
      rw [places]
      split
      next => exact List.mem_cons_of_mem _ hr
      next => exact hr

/-- **The significant lexemes come back from the text of all, at their offsets, and nothing else
does, if and only if none of them runs on into what comes after it.** -/
theorem yields_places_iff {text : String} (htext : text.toList = chars ls)
    (hwhole : ∀ l ∈ ls, l.IsWhole) (hcomments : CommentsEndLines ls) :
    (Cursor.ofString text).Yields (places 0 ls) ↔ StandApart ls := by
  constructor
  · intro h
    exact standApart_of_mem [] htext
      (Cursor.exists_next_of_yields (Cursor.in_ofString text) h)
  · intro h
    exact (rescans_of_standApart hwhole h hcomments).1 (Cursor.ofString text) htext

theorem map_fst_places (offset : Nat) (ls : List Lexeme) :
    (places offset ls).map (·.1) = ls.filter (·.isSignificant) := by
  induction ls generalizing offset with
  | nil => rfl
  | cons l ls ih =>
    rw [places]
    split
    next h => rw [List.map_cons, ih, List.filter_cons_of_pos h]
    next h => rw [ih, List.filter_cons_of_neg h]

/-- What is read without a fault is all of the text. -/
theorem rest_eq_chars {mode : Mode} (h : (c.lexemes mode).2.2 = none) :
    c.rest = chars ((c.lexemes mode).1.map (·.1)) := by
  induction c using Cursor.lexemes.induct mode with
  | case1 c fault next =>
    rw [Cursor.lexemes_of_fault next] at h
    cases h
  | case2 c next =>
    rw [Cursor.next_eq_none next, Cursor.lexemes_of_atEnd next]
    rfl
  | case3 c l c' next _ _ _ _ ih =>
    rw [Cursor.lexemes_of_next next] at h ⊢
    rw [(Cursor.reads_of_next next).rest, ih h]
    rfl

theorem lexemes_of_ofText {text : String} (h : ofText text = .ok ls) :
    ((Cursor.ofString text).lexemes .strict).2.2 = none ∧
      ((Cursor.ofString text).lexemes .strict).1.map (·.1) = ls := by
  unfold ofText at h
  split at h
  next hread =>
    cases h
    rw [hread]
    exact ⟨rfl, rfl⟩
  next => cases h

/-- A text is made of the lexemes that are read strictly from it. -/
theorem toList_of_ofText {text : String} (h : ofText text = .ok ls) : text.toList = chars ls := by
  obtain ⟨hfault, rfl⟩ := lexemes_of_ofText h
  exact rest_eq_chars hfault

/-- The lexemes that are read strictly from a text are read at cursors in it. -/
theorem exists_next_of_ofText {text : String} (h : ofText text = .ok ls) :
    ∀ l ∈ ls, ∃ c₁ c₂ : Cursor, c₁.In text ∧ c₁.next .strict = .ok (some (l, c₂)) := by
  obtain ⟨-, rfl⟩ := lexemes_of_ofText h
  intro l hl
  obtain ⟨r, hr, rfl⟩ := List.mem_map.1 hl
  obtain ⟨c₁, c₂, hin, hnext, -⟩ := Cursor.exists_next_of_mem (Cursor.in_ofString text) r hr
  exact ⟨c₁, c₂, hin, hnext⟩

/-- The lexemes that are read strictly from a text are whole. -/
theorem isWhole_of_ofText {text : String} (h : ofText text = .ok ls) : ∀ l ∈ ls, l.IsWhole := by
  intro l hl
  obtain ⟨c₁, c₂, -, hnext⟩ := exists_next_of_ofText h l hl
  exact isWhole_of_next hnext

/-- Where the significant lexemes come back, the strict reading of the text is these and trivia. -/
theorem ofText_of_yields {text : String} {ps : List (Lexeme × Nat)}
    (h : (Cursor.ofString text).Yields ps) :
    ∃ read, ofText text = .ok read ∧ read.filter (·.isSignificant) = ps.map (·.1) := by
  obtain ⟨read, stop, hread, rfl⟩ := h
  refine ⟨read.map (·.1), by rw [ofText, hread], ?_⟩
  rw [List.filter_map, List.map_map]
  rfl

/-- The strict reading of the text of lexemes that come back is these, trivia apart. -/
theorem ofText_of_rescans {text : String} (h : Rescans ls) (htext : text.toList = chars ls) :
    ∃ read, ofText text = .ok read ∧
      read.filter (·.isSignificant) = ls.filter (·.isSignificant) := by
  obtain ⟨read, hread, hfilter⟩ := ofText_of_yields (h (Cursor.ofString text) htext)
  exact ⟨read, hread, hfilter.trans (map_fst_places _ ls)⟩

end Lexeme

end ShaderPass
