import ShaderPass.Proofs.Directive.Line
import ShaderPass.Proofs.Text.Bytes

/-!
# Proofs/Lexeme/Reading — a lexeme is what its text has at its location

A cursor is **in** a text when the text is what has been read and what is left, and the location
counts what has been read.  The cursors that reading leads to stay in the text (`Crosses.in`), so a
lexeme, and a line end of a directive line, is found in the bytes of the text at the offset that goes
with it (`In.hasAt`, `In.lineEndAt`).
-/

namespace ShaderPass

open Text (HasAt)

namespace Lexeme

/-! ## The forms, one after the other -/

namespace Form

private theorem getD_find?_cons (k : Kind) (n : Nat) (fs : List (Kind × Nat)) (d : Kind × Nat) :
    (((k, n) :: fs).find? (·.2 != 0)).getD d =
      if n ≠ 0 then (k, n) else (fs.find? (·.2 != 0)).getD d := by
  rw [List.find?_cons]
  by_cases h : n = 0
  · simp [h]
  · rw [if_pos h, bne_iff_ne.2 h]
    rfl

/-- The form of a text is the first that matches. -/
theorem form_eq (text : List Char) : form text =
    if newline text ≠ 0 then (.newline, newline text)
    else if whitespace text ≠ 0 then (.whitespace, whitespace text)
    else if lineComment text ≠ 0 then (.lineComment, lineComment text)
    else if blockComment text ≠ 0 then (.blockComment, blockComment text)
    else if identifier text ≠ 0 then (.identifier, identifier text)
    else if number text ≠ 0 then (.number, number text)
    else if quoted '"' text ≠ 0 then (.stringLiteral, quoted '"' text)
    else if quoted '\'' text ≠ 0 then (.charLiteral, quoted '\'' text)
    else (.punct, 1) := by
  simp only [form, forms, List.map_cons, List.map_nil, getD_find?_cons]
  rfl

/-- Only a line end has the form of one. -/
theorem newline_of_form {text : List Char} (h : (form text).1 = .newline) :
    newline text ≠ 0 ∧ (form text).2 = newline text := by
  rw [form_eq] at h ⊢
  repeat' split at h
  all_goals simp_all

/-- Only a name has the form of one. -/
theorem identifier_of_form {text : List Char} (h : (form text).1 = .identifier) :
    identifier text ≠ 0 ∧ (form text).2 = identifier text := by
  rw [form_eq] at h ⊢
  repeat' split at h
  all_goals simp_all

/-- Punctuation is one character. -/
theorem punct_of_form {text : List Char} (h : (form text).1 = .punct) : (form text).2 = 1 := by
  rw [form_eq] at h ⊢
  repeat' split at h
  all_goals simp_all

/-- What a name is made of is no line feed. -/
theorem not_mem_take_identifier (text : List Char) : '\n' ∉ text.take (identifier text) := by
  unfold identifier
  split
  next c text =>
    split
    next hc =>
      have hpart : text.take (run isIdentifierPart text) = text.takeWhile isIdentifierPart :=
        (List.prefix_iff_eq_take.1 (List.takeWhile_prefix isIdentifierPart)).symm
      rw [List.take_succ_cons, hpart, List.mem_cons]
      rintro (rfl | hmem)
      · exact absurd hc (by decide)
      · exact absurd (List.all_eq_true.1 List.all_takeWhile _ hmem) (by decide)
    next => exact List.not_mem_nil
  next => exact List.not_mem_nil

end Form

namespace Cursor

variable {mode : Mode} {c c' : Cursor} {l : Lexeme} {text : String}

/-! ## One lexeme -/

/-- What a lexeme that is read has to do with the cursors before and after it. -/
structure Reads (c : Cursor) (l : Lexeme) (c' : Cursor) : Prop where
  rest : c.rest = l.text.toList ++ c'.rest
  location : c'.location = c.location.advanceAll l.text.toList
  nonempty : l.text ≠ ""
  form : Form.form c.rest = (l.kind, l.text.toList.length)

theorem reads_of_next (h : c.next mode = .ok (some (l, c'))) : c.Reads l c' := by
  rw [next] at h
  split at h
  next => cases h
  next hne =>
    simp only at h
    split at h
    next => cases h
    next =>
      simp only [Except.ok.injEq, Option.some.injEq, Prod.mk.injEq] at h
      obtain ⟨rfl, rfl⟩ := h
      have hle := Form.form_le hne
      have hpos := Form.form_pos c.rest
      refine ⟨?_, ?_, ?_, ?_⟩
      · rw [String.toList_ofList]
        exact (List.take_append_drop _ _).symm
      · rw [String.toList_ofList]
        rfl
      · intro he
        have := congrArg (·.toList.length) he
        simp only [String.toList_ofList, List.length_take, String.toList_empty,
          List.length_nil] at this
        omega
      · rw [String.toList_ofList, List.length_take, Nat.min_eq_left hle]

/-- A lexeme moves the offset on by its bytes. -/
theorem Reads.offset (h : c.Reads l c') :
    c'.location.offset = c.location.offset + l.text.utf8ByteSize := by
  rw [h.location, Location.offset_advanceAll, ← Text.utf8ByteSize_ofList, String.ofList_toList]

theorem Reads.offset_lt (h : c.Reads l c') : c.location.offset < c'.location.offset := by
  have := Text.utf8ByteSize_pos h.nonempty
  rw [h.offset]
  omega

/-! ## Cursors in a text -/

/-- Whether a cursor is in a text. -/
def In (c : Cursor) (text : String) : Prop :=
  ∃ pre, text.toList = pre ++ c.rest ∧ c.location = Location.origin.advanceAll pre

theorem in_ofString (text : String) : (ofString text).In text := ⟨[], rfl, rfl⟩

theorem Reads.in (h : c.Reads l c') (hc : c.In text) : c'.In text := by
  obtain ⟨pre, htext, hloc⟩ := hc
  refine ⟨pre ++ l.text.toList, ?_, ?_⟩
  · rw [htext, h.rest, List.append_assoc]
  · rw [h.location, hloc, Location.advanceAll_append]

theorem In.next (hc : c.In text) (h : c.next mode = .ok (some (l, c'))) : c'.In text :=
  (reads_of_next h).in hc

/-- **A lexeme is what the text has at its offset.** -/
theorem In.hasAt (hc : c.In text) (h : c.Reads l c') : HasAt text c.location.offset l.text := by
  obtain ⟨pre, htext, hloc⟩ := hc
  rw [hloc, Location.offset_advanceAll]
  simp only [Location.origin, Nat.zero_add]
  have hrest : text.toList = pre ++ (l.text.toList ++ c'.rest) := by rw [htext, h.rest]
  exact Text.hasAt_of_toList hrest

/-! ## Line ends -/

/-- A line end is a line feed, or a carriage return and a line feed. -/
theorem Reads.lineEnd (h : c.Reads l c') (hl : l.kind = .newline) :
    l.text = "\n" ∨ l.text = "\r\n" := by
  have hk : (Form.form c.rest).1 = .newline := by rw [h.form, hl]
  obtain ⟨hne, hlen⟩ := Form.newline_of_form hk
  rw [h.form] at hlen
  have hlist : l.text.toList = c.rest.take (Form.newline c.rest) := by
    rw [← hlen, h.rest]
    exact (List.take_left).symm
  unfold Form.newline at hne hlist
  split at hlist
  next he =>
    rw [he] at hlist
    exact .inr (String.toList_inj.1 hlist)
  next he =>
    rw [he] at hlist
    exact .inl (String.toList_inj.1 hlist)
  next => simp_all

end Cursor

end Lexeme

/-- Whether a text has a line end at an offset. -/
def Text.LineEndAt (text : String) (offset : Nat) : Prop :=
  HasAt text offset "\n" ∨ HasAt text offset "\r\n"

namespace Lexeme.Cursor

variable {mode : Mode} {c c' : Cursor} {l : Lexeme} {text : String}

/-- The text has a line end where one is read. -/
theorem In.lineEndAt (hc : c.In text) (h : c.Reads l c') (hl : l.kind = .newline) :
    Text.LineEndAt text c.location.offset := by
  have hat := hc.hasAt h
  rcases h.lineEnd hl with he | he
  · exact .inl (he ▸ hat)
  · exact .inr (he ▸ hat)

/-- Some offsets are those of line ends of a text, in order, from one offset up to another. -/
structure LineEnds (text : String) (start : Nat) (ends : List Nat) (stop : Nat) : Prop where
  le : start ≤ stop
  lineEndAt : ∀ o ∈ ends, Text.LineEndAt text o
  bounds : ∀ o ∈ ends, start ≤ o ∧ o < stop
  sorted : ends.Pairwise (· < ·)

theorem LineEnds.nil {start stop : Nat} (h : start ≤ stop) : LineEnds text start [] stop :=
  ⟨h, fun _ ho => absurd ho List.not_mem_nil, fun _ ho => absurd ho List.not_mem_nil, .nil⟩

theorem LineEnds.cons {start mid stop o : Nat} {ends : List Nat} (h : LineEnds text mid ends stop)
    (ho : Text.LineEndAt text o) (hs : start ≤ o) (hm : o < mid) :
    LineEnds text start (o :: ends) stop := by
  have := h.le
  refine ⟨by omega, List.forall_mem_cons.2 ⟨ho, h.lineEndAt⟩,
    List.forall_mem_cons.2 ⟨⟨hs, by omega⟩, fun o' ho' => ?_⟩,
    List.pairwise_cons.2 ⟨fun o' ho' => ?_, h.sorted⟩⟩
  · have := h.bounds o' ho'
    omega
  · have := h.bounds o' ho'
    omega

theorem LineEnds.mono {start mid stop : Nat} {ends : List Nat} (h : LineEnds text mid ends stop)
    (hs : start ≤ mid) : LineEnds text start ends stop :=
  ⟨Nat.le_trans hs h.le, h.lineEndAt,
    fun o ho => ⟨Nat.le_trans hs (h.bounds o ho).1, (h.bounds o ho).2⟩, h.sorted⟩

/-! ## From one cursor to another -/

/-- Reading lexeme by lexeme from one cursor to another **crosses** the line ends at some offsets. -/
inductive Crosses : Cursor → List Nat → Cursor → Prop
  | refl (c : Cursor) : c.Crosses [] c
  | lineEnd {c c' c'' : Cursor} {l : Lexeme} {ends : List Nat} (reads : c.Reads l c')
      (newline : l.kind = .newline) (rest : c'.Crosses ends c'') :
      c.Crosses (c.location.offset :: ends) c''
  | other {c c' c'' : Cursor} {l : Lexeme} {ends : List Nat} (reads : c.Reads l c')
      (noNewline : l.kind ≠ .newline) (rest : c'.Crosses ends c'') : c.Crosses ends c''

theorem Crosses.trans {c'' : Cursor} {ends ends' : List Nat} (h : c.Crosses ends c')
    (h' : c'.Crosses ends' c'') : c.Crosses (ends ++ ends') c'' := by
  induction h with
  | refl => exact h'
  | lineEnd reads newline _ ih => exact .lineEnd reads newline (ih h')
  | other reads noNewline _ ih => exact .other reads noNewline (ih h')

/-- **Reading stays in the text**, and the line ends that it crosses are line ends of the text, in
order. -/
theorem Crosses.in {ends : List Nat} (h : c.Crosses ends c') (hc : c.In text) :
    c'.In text ∧ LineEnds text c.location.offset ends c'.location.offset := by
  induction h with
  | refl => exact ⟨hc, .nil (Nat.le_refl _)⟩
  | lineEnd reads newline _ ih =>
    obtain ⟨hin, hends⟩ := ih (reads.in hc)
    exact ⟨hin, hends.cons (hc.lineEndAt reads newline) (Nat.le_refl _) reads.offset_lt⟩
  | other reads _ _ ih =>
    obtain ⟨hin, hends⟩ := ih (reads.in hc)
    exact ⟨hin, hends.mono (Nat.le_of_lt reads.offset_lt)⟩

/-- A directive line goes on at a line end. -/
theorem crosses_of_continuation (h : Directive.continuation? l c = some c') :
    c.Crosses [c.location.offset] c' := by
  unfold Directive.continuation? at h
  split at h
  next =>
    unfold Directive.afterLineEnd? at h
    split at h
    next l' c₁ hn =>
      split at h
      next hk => exact .lineEnd (Option.some.inj h ▸ reads_of_next hn) hk (.refl _)
      next => cases h
    next => cases h
  next => cases h

/-- The line ends that the rest of a directive line gives are those that it crosses. -/
theorem crosses_of_readsRest {after : Cursor} {line : String} {ends : List Nat}
    (h : Directive.ReadsRest c line ends after) : c.Crosses ends after := by
  induction h with
  | atEnd => exact .refl _
  | lineEnd next newline => exact .lineEnd (reads_of_next next) newline (.refl _)
  | continued next noNewline continues _ ih =>
    exact .other (reads_of_next next) noNewline ((crosses_of_continuation continues).trans ih)
  | lexeme next noNewline _ _ ih => exact .other (reads_of_next next) noNewline ih

/-- **The line ends that a directive line gives are those that it crosses.** -/
theorem crosses_of_readLine {after : Cursor} {line : Directive.Line}
    (h : Directive.readLine c = .ok (line, after)) : c.Crosses line.lineEnds after := by
  obtain ⟨_, rest, -⟩ := Directive.readLine_eq_ok h
  exact crosses_of_readsRest rest

/-! ## Reading leniently -/

theorem next_eq_none (h : c.next mode = .ok none) : c.rest = [] := by
  rw [next] at h
  split at h
  next hrest => exact hrest
  next =>
    simp only at h
    split at h
    next => cases h
    next => cases h

/-- A directive line without a line end goes to the end of the text. -/
theorem rest_eq_nil_of_readLine {after : Cursor} {line : Directive.Line}
    (h : Directive.readLine c = .ok (line, after)) (hends : line.lineEnds = []) :
    after.rest = [] := by
  obtain ⟨text, rest, -⟩ := Directive.readLine_eq_ok h
  clear h
  generalize line.lineEnds = ends at rest hends
  induction rest with
  | atEnd next => exact next_eq_none next
  | lineEnd | continued => cases hends
  | lexeme _ _ _ _ ih => exact ih hends

/-- **A lenient reading can only fault a block comment that is never closed.** -/
theorem fault_of_next_lenient {fault : Fault} (h : c.next .lenient = .error fault) :
    fault = .unterminatedBlockComment := by
  rw [next] at h
  split at h
  next => cases h
  next =>
    simp only at h
    split at h
    next hfault =>
      cases h
      split at hfault
      next =>
        unfold fault? at hfault
        split at hfault
        next => exact (Option.some.inj hfault).symm
        next => cases hfault
        next => cases hfault
        next => cases hfault
      next => cases hfault
    next => cases h

theorem fault_of_readLine {fault : Fault} {location : Location}
    (h : Directive.readLine c = .error (fault, location)) : fault = .unterminatedBlockComment := by
  have fails := Directive.failsRest_of_readLine h
  clear h
  induction fails with
  | fault next => exact fault_of_next_lenient next
  | continued _ _ _ _ ih | lexeme _ _ _ _ ih => exact ih

/-- **A directive line that cannot be read fails at a cursor that its reading leads to.** -/
theorem crosses_of_readLine_error {fault : Fault} {location : Location}
    (h : Directive.readLine c = .error (fault, location)) :
    ∃ ends c', c.Crosses ends c' ∧ location = c'.location := by
  have fails := Directive.failsRest_of_readLine h
  clear h
  induction fails with
  | fault => exact ⟨[], _, .refl _, rfl⟩
  | continued next noNewline continues _ ih =>
    obtain ⟨ends, stop, crosses, hloc⟩ := ih
    have continued := (crosses_of_continuation continues).trans crosses
    exact ⟨_, stop, .other (reads_of_next next) noNewline continued, hloc⟩
  | lexeme next noNewline _ _ ih =>
    obtain ⟨ends, stop, crosses, hloc⟩ := ih
    exact ⟨_, stop, .other (reads_of_next next) noNewline crosses, hloc⟩

end Lexeme.Cursor

end ShaderPass
