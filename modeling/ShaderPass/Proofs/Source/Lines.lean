import ShaderPass.Proofs.Lexeme.Reading
import ShaderPass.Proofs.Source.LineStarts
import ShaderPass.Proofs.Source.Pieces
import ShaderPass.Proofs.Text.Location

/-!
# Proofs/Source/Lines — pieces that come from the lines that they are put on

    text      a b ⏎ c ⏎            line of a byte: 1 + the line feeds before it
    pieces    a · b · ⏎ · c · ⏎    each begins on its line of the text, and goes on with it

Pieces are **in step** with a text when each of their bytes comes from the line of the text that is
the line of the byte in their output (`InStep`).  That is kept where pieces are put together
(`inStep_append`), a lexeme read from the text is in step with it (`follows_of_reads`), and so is a
line feed for each line end that a directive line crosses, if no other lexeme of the line holds one
(`inStep_crosses`).
-/

namespace ShaderPass

/-- The line feeds of a text. -/
def Text.lineFeeds (text : String) : Nat := text.toList.count '\n'

/-- Whether a lexeme holds no line feed. -/
def Lexeme.OneLine (l : Lexeme) : Prop := '\n' ∉ l.text.toList

instance (l : Lexeme) : Decidable l.OneLine := inferInstanceAs (Decidable (_ ∉ _))

namespace Text

variable {cs ds : List Char} {k : Nat}

@[simp] theorem lineFeeds_append (s t : String) : lineFeeds (s ++ t) = lineFeeds s + lineFeeds t := by
  rw [lineFeeds, String.toList_append, List.count_append]
  rfl

theorem lineFeeds_eq_zero {s : String} : lineFeeds s = 0 ↔ '\n' ∉ s.toList := List.count_eq_zero

/-! ## Lines of a text -/

/-- The line feeds of some characters before an offset; a character that the offset is in does not
count. -/
def feedsBefore : List Char → Nat → Nat
  | [], _ => 0
  | c :: cs, offset =>
    if offset < c.utf8Size then 0
    else (if c = '\n' then 1 else 0) + feedsBefore cs (offset - c.utf8Size)

theorem feedsBefore_zero (cs : List Char) : feedsBefore cs 0 = 0 := by
  cases cs with
  | nil => rfl
  | cons c cs => exact if_pos c.utf8Size_pos

theorem feedsBefore_append_left (h : k ≤ byteLength cs) (ds : List Char) :
    feedsBefore (cs ++ ds) k = feedsBefore cs k := by
  induction cs generalizing k with
  | nil =>
    obtain rfl : k = 0 := Nat.le_zero.1 h
    exact feedsBefore_zero ds
  | cons c cs ih =>
    rw [byteLength] at h
    rw [List.cons_append, feedsBefore, feedsBefore, ih (by omega)]

theorem feedsBefore_append_right (cs ds : List Char) (k : Nat) :
    feedsBefore (cs ++ ds) (byteLength cs + k) = cs.count '\n' + feedsBefore ds k := by
  induction cs with
  | nil => rw [List.nil_append, byteLength, Nat.zero_add, List.count_nil, Nat.zero_add]
  | cons c cs ih =>
    have hsub : c.utf8Size + byteLength cs + k - c.utf8Size = byteLength cs + k := by omega
    rw [List.cons_append, feedsBefore, byteLength, if_neg (by omega), hsub, ih, List.count_cons]
    simp only [beq_iff_eq]
    omega

theorem feedsBefore_eq_zero (h : '\n' ∉ cs) (k : Nat) : feedsBefore cs k = 0 := by
  induction cs generalizing k with
  | nil => rfl
  | cons c cs ih =>
    rw [List.mem_cons, not_or] at h
    rw [feedsBefore, ih h.2, if_neg (Ne.symm h.1)]
    split <;> rfl

/-- The line of a byte of a text. -/
def lineAt (text : String) (offset : Nat) : Nat := 1 + feedsBefore text.toList offset

end Text

namespace Source

open Text (lineFeeds lineAt feedsBefore byteLength)

theorem fst_lineColumnFrom : ∀ (cs : List Char) (line column lineBytes offset : Nat),
    (lineColumnFrom line column lineBytes cs offset).1 = line + feedsBefore cs offset := by
  intro cs
  induction cs with
  | nil => exact fun line _ _ _ => rfl
  | cons c cs ih =>
    intro line column lineBytes offset
    have hpos := c.utf8Size_pos
    rw [lineColumnFrom, feedsBefore]
    split
    next h0 => rw [if_pos (by omega), Nat.add_zero]
    next =>
      split
      next hlt => rfl
      next hge =>
        split
        next hc => rw [ih]; omega
        next hc => rw [ih, Nat.zero_add]

/-- The position of an offset is on the line of the byte there. -/
theorem line_position (u : Unit) (offset : Nat) : (u.position offset).line = lineAt u.text offset := by
  show (u.lineColumn offset).1 = _
  rw [lineColumn_eq]
  exact fst_lineColumnFrom u.text.toList 1 1 0 offset

/-! ## Pieces in step with a text -/

namespace Piece

/-- Whether a piece comes from a line of a unit, and its bytes from the lines after it that they are
on in the piece. -/
structure Follows (unit : Nat) (text : String) (line : Nat) (p : Piece) : Prop where
  unit : p.unit = unit
  start : lineAt text p.offset = line
  inner : ∀ k < p.length, lineAt text (p.offsetAt k) = line + feedsBefore p.text.toList k

/-- Pieces that are put out from one line on, up to another, and come from these lines of a unit. -/
def InStep (unit : Nat) (text : String) : Nat → List Piece → Nat → Prop
  | line, [], line' => line = line'
  | line, p :: ps, line' =>
    p.Follows unit text line ∧ InStep unit text (line + lineFeeds p.text) ps line'

variable {unit : Nat} {text : String} {line line' : Nat} {ps qs : List Piece} {p : Piece}

theorem InStep.append {mid : Nat} (h : InStep unit text line ps mid)
    (h' : InStep unit text mid qs line') : InStep unit text line (ps ++ qs) line' := by
  induction ps generalizing line with
  | nil =>
    obtain rfl : line = mid := h
    exact h'
  | cons p ps ih => exact ⟨h.1, ih h.2⟩

theorem inStep_append : InStep unit text line (ps ++ qs) line' ↔
    ∃ mid, InStep unit text line ps mid ∧ InStep unit text mid qs line' := by
  refine ⟨fun h => ?_, fun ⟨_, h, h'⟩ => h.append h'⟩
  induction ps generalizing line with
  | nil => exact ⟨line, rfl, h⟩
  | cons p ps ih =>
    obtain ⟨mid, hps, hqs⟩ := ih h.2
    exact ⟨mid, ⟨h.1, hps⟩, hqs⟩

theorem Follows.inStep (h : p.Follows unit text line) :
    InStep unit text line [p] (line + lineFeeds p.text) := ⟨h, rfl⟩

/-- Pieces without line feeds end on the line that they begin on. -/
theorem InStep.eq_of_oneLine (h : InStep unit text line ps line')
    (hps : ∀ p ∈ ps, '\n' ∉ p.text.toList) : line' = line := by
  induction ps with
  | nil => exact h.symm
  | cons p ps ih =>
    obtain ⟨hp, hps⟩ := List.forall_mem_cons.1 hps
    have rest := h.2
    rw [Text.lineFeeds_eq_zero.2 hp] at rest
    exact ih rest hps

/-- Pieces that are in step have as many line feeds as there are lines from the first to the last. -/
theorem InStep.lineFeeds (h : InStep unit text line ps line') :
    line + Text.lineFeeds (output ps) = line' := by
  induction ps generalizing line with
  | nil => exact h
  | cons p ps ih =>
    have := ih h.2
    rw [show p :: ps = [p] ++ ps from rfl, output_append, Text.lineFeeds_append, output_singleton]
    omega

/-- **Each byte of pieces in step comes from the line that it is on.** -/
theorem InStep.at? (h : InStep unit text line ps line') {i k : Nat} (hat : at? ps i = some (p, k)) :
    p.unit = unit ∧ lineAt text (p.offsetAt k) = line + feedsBefore (output ps).toList i := by
  induction ps generalizing line i with
  | nil => cases hat
  | cons q ps ih =>
    have bytes : byteLength q.text.toList = q.length := by
      rw [← Text.utf8ByteSize_ofList, String.ofList_toList]
      rfl
    rw [show q :: ps = [q] ++ ps from rfl, output_append, output_singleton, String.toList_append]
    rw [Piece.at?] at hat
    split at hat
    next hi =>
      obtain ⟨rfl, rfl⟩ := Prod.mk.inj (Option.some.inj hat)
      rw [Text.feedsBefore_append_left (by omega)]
      exact ⟨h.1.unit, h.1.inner i hi⟩
    next hi =>
      obtain ⟨hunit, hline⟩ := ih h.2 hat
      have hsplit : i = byteLength q.text.toList + (i - q.length) := by omega
      rw [hsplit, Text.feedsBefore_append_right, hline, Text.lineFeeds]
      exact ⟨hunit, by omega⟩

/-- A piece without line feeds is in step when it comes from its line. -/
theorem follows_of_oneLine (hunit : p.unit = unit) (hline : lineAt text p.offset = line)
    (hfixed : p.advancing = false) (htext : '\n' ∉ p.text.toList) : p.Follows unit text line := by
  refine ⟨hunit, hline, fun k _ => ?_⟩
  rw [offsetAt, hfixed, if_neg Bool.false_ne_true, hline, Text.feedsBefore_eq_zero htext, Nat.add_zero]

end Piece

end Source

/-! ## Cursors -/

namespace Lexeme.Cursor

open Text (lineFeeds lineAt feedsBefore byteLength)
open Source (Piece)

variable {c c' : Cursor} {l : Lexeme} {text : String} {ends : List Nat}

theorem Reads.line (h : c.Reads l c') : c'.location.line = c.location.line + lineFeeds l.text := by
  rw [h.location, Location.line_advanceAll, lineFeeds]

/-- A cursor in a text is on the line of the byte at its offset. -/
theorem In.lineAt (hc : c.In text) : Text.lineAt text c.location.offset = c.location.line := by
  obtain ⟨pre, htext, hloc⟩ := hc
  have offset : c.location.offset = byteLength pre + 0 := by
    rw [hloc, Location.offset_advanceAll]
    exact Nat.zero_add _
  rw [Text.lineAt, htext, offset, Text.feedsBefore_append_right, Text.feedsBefore_zero, hloc,
    Location.line_advanceAll]
  rfl

/-- A cursor at the end of a text has all its line feeds before it. -/
theorem In.line_of_rest_nil (hc : c.In text) (h : c.rest = []) :
    c.location.line = 1 + lineFeeds text := by
  obtain ⟨pre, htext, hloc⟩ := hc
  rw [h, List.append_nil] at htext
  rw [hloc, Location.line_advanceAll, lineFeeds, htext]
  rfl

/-- **A lexeme is in step with the text it is read from.** -/
theorem follows_of_reads (hc : c.In text) (h : c.Reads l c') (unit : Nat) :
    (Piece.mk l.text unit c.location.offset true).Follows unit text c.location.line := by
  refine ⟨rfl, hc.lineAt, fun k hk => ?_⟩
  obtain ⟨pre, htext, hloc⟩ := hc
  have offset : c.location.offset = byteLength pre := by
    rw [hloc, Location.offset_advanceAll]
    exact Nat.zero_add _
  have hle : k ≤ byteLength l.text.toList := by
    rw [← Text.utf8ByteSize_ofList, String.ofList_toList]
    exact Nat.le_of_lt hk
  have place : (Piece.mk l.text unit c.location.offset true).offsetAt k = byteLength pre + k := by
    rw [Piece.offsetAt, if_pos rfl, offset]
  rw [place, Text.lineAt, htext, Text.feedsBefore_append_right, h.rest,
    Text.feedsBefore_append_left hle, hloc, Location.line_advanceAll]
  exact (Nat.add_assoc _ _ _).symm

/-- A line end is put out as one line feed, and holds one. -/
theorem Reads.follows_lineEnd (h : c.Reads l c') (newline : l.kind = .newline) (hc : c.In text)
    (unit : Nat) : (Piece.mk "\n" unit c.location.offset true).Follows unit text c.location.line ∧
      c'.location.line = c.location.line + lineFeeds "\n" := by
  refine ⟨⟨rfl, hc.lineAt, fun k hk => ?_⟩, ?_⟩
  · obtain rfl : k = 0 := Nat.lt_one_iff.1 hk
    rw [Text.feedsBefore_zero, Nat.add_zero]
    exact hc.lineAt
  · rw [h.line]
    rcases h.lineEnd newline with htext | htext
    · rw [htext]
    · rw [htext]
      rfl

/-! ## From one cursor to another -/

/-- Whether a lexeme is read on the way from one cursor to another. -/
def Meets (c : Cursor) (l : Lexeme) (c' : Cursor) : Prop :=
  ∃ ends c₁ c₂ ends', c.Crosses ends c₁ ∧ c₁.Reads l c₂ ∧ c₂.Crosses ends' c'

theorem Reads.meets (h : c.Reads l c') {m : Lexeme} {stop : Cursor} (hm : c'.Meets m stop) :
    c.Meets m stop := by
  obtain ⟨ends, c₁, c₂, ends', crosses, reads, rest⟩ := hm
  by_cases newline : l.kind = .newline
  · exact ⟨_, c₁, c₂, ends', .lineEnd h newline crosses, reads, rest⟩
  · exact ⟨_, c₁, c₂, ends', .other h newline crosses, reads, rest⟩

theorem Crosses.meets {start : Cursor} (h : start.Crosses ends c) {m : Lexeme} {stop : Cursor}
    (hm : c.Meets m stop) : start.Meets m stop := by
  obtain ⟨_, c₁, c₂, ends', crosses, reads, rest⟩ := hm
  exact ⟨_, c₁, c₂, ends', h.trans crosses, reads, rest⟩

/-- At a cursor only one lexeme can be read. -/
theorem Reads.unique {m : Lexeme} {d : Cursor} (h : c.Reads l c') (h' : c.Reads m d) :
    l = m ∧ c' = d := by
  have form := h.form.symm.trans h'.form
  obtain ⟨hkind, hlen⟩ := Prod.mk.inj form
  obtain ⟨htext, hrest⟩ := List.append_inj (h.rest.symm.trans h'.rest) hlen
  have htext : l.text = m.text := String.toList_inj.1 htext
  refine ⟨?_, ?_⟩
  · cases l
    cases m
    cases hkind
    cases htext
    rfl
  · have hloc : c'.location = d.location := by rw [h.location, h'.location, htext]
    cases c'
    cases d
    cases hrest
    cases hloc
    rfl

/-- What can be read at a cursor is the first of the lexemes from there on. -/
theorem lexemes_of_reads {mode : Mode} {ls : List (Lexeme × Location)} {stop : Cursor}
    (h : c.Reads l c') (hls : c.lexemes mode = (ls, stop, none)) :
    ∃ more, ls = (l, c.location) :: more ∧ c'.lexemes mode = (more, stop, none) := by
  have hne : c.rest ≠ [] := by
    rw [h.rest]
    exact List.append_ne_nil_of_left_ne_nil (mt String.toList_eq_nil_iff.1 h.nonempty) _
  unfold lexemes at hls
  split at hls
  next => cases hls
  next hnext => exact absurd (next_eq_none hnext) hne
  next m d hnext =>
    obtain ⟨rfl, rfl⟩ := h.unique (reads_of_next hnext)
    obtain ⟨rfl, hrest⟩ := Prod.mk.inj hls
    exact ⟨_, rfl, Prod.ext rfl hrest⟩

/-- **What is met on the way is one of the lexemes of the text.** -/
theorem Meets.mem_lexemes {mode : Mode} {ls : List (Lexeme × Location)} {stop : Cursor}
    (h : c.Meets l c') (hls : c.lexemes mode = (ls, stop, none)) : ∃ loc, (l, loc) ∈ ls := by
  obtain ⟨_, c₁, c₂, _, crosses, reads, -⟩ := h
  induction crosses generalizing ls with
  | refl =>
    obtain ⟨more, rfl, -⟩ := lexemes_of_reads reads hls
    exact ⟨_, List.mem_cons_self⟩
  | lineEnd reads' _ _ ih | other reads' _ _ ih =>
    obtain ⟨more, rfl, hmore⟩ := lexemes_of_reads reads' hls
    obtain ⟨loc, hmem⟩ := ih hmore reads
    exact ⟨loc, List.mem_cons_of_mem _ hmem⟩

/-- **A line feed for each line end that is crossed is in step with the text**, if there are no other
line feeds on the way. -/
theorem inStep_crosses (h : c.Crosses ends c') (hc : c.In text) (unit : Nat)
    (hone : ∀ l, c.Meets l c' → l.kind ≠ .newline → l.OneLine) :
    Piece.InStep unit text c.location.line (ends.map fun o => ⟨"\n", unit, o, true⟩)
      c'.location.line := by
  induction h with
  | refl => rfl
  | lineEnd reads newline _ ih =>
    obtain ⟨follows, line⟩ := reads.follows_lineEnd newline hc unit
    have rest := ih (reads.in hc) fun l hl => hone l (reads.meets hl)
    rw [line] at rest
    exact ⟨follows, rest⟩
  | @other c₁ c₂ stop l ends reads noNewline rest ih =>
    have oneLine : l.OneLine := hone l ⟨[], c₁, c₂, ends, .refl c₁, reads, rest⟩ noNewline
    have line : c₂.location.line = c₁.location.line := by
      rw [reads.line, Text.lineFeeds_eq_zero.2 oneLine, Nat.add_zero]
    exact line ▸ ih (reads.in hc) fun l hl => hone l (reads.meets hl)

/-! ## Names -/

/-- A name holds no line feed. -/
theorem Reads.oneLine_of_identifier (h : c.Reads l c') (hk : l.kind = .identifier) : l.OneLine := by
  have hlen := (Form.identifier_of_form (by rw [h.form, hk])).2
  have htext : l.text.toList = c.rest.take (Form.identifier c.rest) := by
    rw [← hlen, h.form, h.rest]
    exact List.take_left.symm
  rw [OneLine, htext]
  exact Form.not_mem_take_identifier c.rest

end Lexeme.Cursor

end ShaderPass
