import Mathlib.Data.Prod.Lex
import Mathlib.Order.Monotone.Basic
import ShaderPass.Proofs.Lexeme.Tiling
import ShaderPass.Proofs.Source.LineStarts

/-!
# Proofs/Source/LineColumn — each place of a text has a line and a column of its own

    text          ü ␍⏎ ⏎ b
    boundaries    0 2 3 4 5 6
    line:column   1:1 1:2 1:3 2:1 3:1 3:2        lexemes begin at 0, 2, 4, 5

The table of line starts tells of a place between two characters how many line feeds and how many
characters of its line are before it (`lineColumn_of_toList`), and these are what reading the text
up to the place counts.  From one such place to the next either the line grows or the column on it,
so that no two have one position (`lineColumn_locates`).
-/

namespace ShaderPass.Source

open Lexeme (Cursor)
open Location (IsAfter columns)
open Text (byteLength Boundary)

variable {u : Unit} {text : String} {pre post : List Char} {location : Location}
  {ls : List (Lexeme × Location)} {d : Cursor}

/-- A text can be cut at each place between two characters. -/
theorem exists_lineCut (htext : text.toList = pre ++ post) :
    ∃ head last, head ++ last = pre ∧ LineCut text head last post := by
  induction pre using List.reverseRecOn generalizing post with
  | nil => exact ⟨[], [], rfl, htext, .inl rfl, List.not_mem_nil⟩
  | append_singleton pre c ih =>
    rw [List.append_assoc, List.singleton_append] at htext
    obtain ⟨head, last, rfl, cut⟩ := ih htext
    by_cases hc : c = '\n'
    · subst hc
      exact ⟨_, [], List.append_nil _, cut.lineFeed⟩
    · exact ⟨head, last ++ [c], (List.append_assoc ..).symm, cut.next hc⟩

/-- What a cut has of the line of its place are the columns before it. -/
theorem LineCut.columns_eq {head last : List Char} (h : LineCut text head last post) :
    columns (head ++ last) = last.length := by
  have hhead : columns head = 0 := by
    obtain rfl | ⟨before, rfl⟩ := h.head
    · rfl
    · rw [Location.columns_append_singleton, if_pos rfl]
  rw [Location.columns_append h.last, hhead, Nat.zero_add]

/-- **Between two characters the table counts the line feeds and the columns before the place.** -/
theorem lineColumn_of_toList (htext : u.text.toList = pre ++ post) :
    u.lineColumn (byteLength pre) = (1 + pre.count '\n', 1 + columns pre) := by
  obtain ⟨head, last, rfl, cut⟩ := exists_lineCut htext
  rw [cut.lineColumn_between, cut.columns_eq, List.count_append, List.count_eq_zero.2 cut.last,
    Nat.add_zero, Nat.add_comm 1, Nat.add_comm 1]

/-- A location of a text has the line and the column of its offset. -/
theorem lineColumn_of_isAfter (h : location.IsAfter pre) (htext : u.text.toList = pre ++ post) :
    u.lineColumn location.offset = (location.line, location.column) := by
  rw [h.offset, h.line, h.column, lineColumn_of_toList htext]

/-- Lexemes that tile a text are found at their own lines and columns, and so is what comes next. -/
theorem lineColumn_of_tiles (h : Cursor.Tiles u.text ls d) :
    (∀ r ∈ ls, u.lineColumn r.2.offset = (r.2.line, r.2.column)) ∧
      u.lineColumn d.location.offset = (d.location.line, d.location.column) := by
  refine ⟨fun r hr => ?_, lineColumn_of_isAfter h.stop h.text⟩
  obtain ⟨before, after, rfl⟩ := List.append_of_mem hr
  have htext : u.text.toList =
      Cursor.charsRead before ++ (Cursor.charsRead (r :: after) ++ d.rest) := by
    rw [h.text, Cursor.charsRead_append, List.append_assoc]
  exact lineColumn_of_isAfter (h.begins before r.1 r.2 after rfl) htext

/-- **From one place to a later one the line grows, or the column where the line is the same.** -/
theorem strictMonoOn_lineColumn (u : Unit) :
    StrictMonoOn (fun offset => toLex (u.lineColumn offset)) {offset | Boundary u.text offset} := by
  intro i hi j hj hlt
  obtain ⟨pre, piece, post, htext, rfl, rfl⟩ := Text.exists_piece hi hj (Nat.le_of_lt hlt)
  have hnext : u.text.toList = (pre ++ piece) ++ post := by rw [htext, List.append_assoc]
  have hpiece : 0 < piece.length := by
    rw [List.length_pos_iff]
    rintro rfl
    exact Nat.lt_irrefl _ hlt
  show toLex (u.lineColumn _) < toLex (u.lineColumn (byteLength pre + byteLength piece))
  rw [← Text.byteLength_append, lineColumn_of_toList htext, lineColumn_of_toList hnext,
    Prod.Lex.toLex_lt_toLex]
  by_cases hfeed : '\n' ∈ piece
  · have := List.count_pos_iff.2 hfeed
    rw [List.count_append]
    exact .inl (by omega)
  · rw [List.count_append, List.count_eq_zero.2 hfeed, Location.columns_append hfeed]
    exact .inr ⟨rfl, by omega⟩

/-- **The line and column of an offset are those that reading the text counts, and tell one place.**
However a text is read, each lexeme, and the cursor that reading comes to, is found at its own line
and column.  Between two characters the line counts the line feeds before the place, and the column
the characters since the last of them.  By line, then column, these places are in the order of the
text, so that no two have one position; and an offset past the end has the position of the end. -/
theorem lineColumn_locates (u : Unit) :
    (∀ ls d, (Cursor.ofString u.text).ReadsAll [.strict, .lenient] ls d →
      (∀ r ∈ ls, u.lineColumn r.2.offset = (r.2.line, r.2.column)) ∧
        u.lineColumn d.location.offset = (d.location.line, d.location.column)) ∧
    (∀ pre post, u.text.toList = pre ++ post →
      u.lineColumn (byteLength pre) = (1 + pre.count '\n', 1 + columns pre)) ∧
    StrictMonoOn (fun offset => toLex (u.lineColumn offset)) {offset | Boundary u.text offset} ∧
    Set.InjOn u.position {offset | Boundary u.text offset} ∧
    ∀ offset, u.text.utf8ByteSize ≤ offset →
      u.lineColumn offset = u.lineColumn u.text.utf8ByteSize := by
  refine ⟨fun ls d reads => lineColumn_of_tiles (Cursor.tiles_of_readsAll reads),
    fun pre post => lineColumn_of_toList, strictMonoOn_lineColumn u, fun i hi j hj heq => ?_,
    fun offset => lineColumn_past_end⟩
  have hline : (u.lineColumn i).1 = (u.lineColumn j).1 := congrArg Position.line heq
  have hcolumn : (u.lineColumn i).2 = (u.lineColumn j).2 := congrArg Position.column heq
  exact (strictMonoOn_lineColumn u).injOn hi hj (congrArg toLex (Prod.ext hline hcolumn))

/-- A character of two bytes, a line end of two, an empty line, and a last line without a line end. -/
theorem lineColumn_locates_apply :
    let u : Unit := ⟨"a", "ü\r\n\nb"⟩
    (u.lineColumn 2 = (1, 2) ∧ u.lineColumn 4 = (2, 1)) ∧ u.lineColumn 5 = (3, 1) ∧
      u.lineColumn 6 = (1 + 2, 1 + 1) ∧ toLex (u.lineColumn 3) < toLex (u.lineColumn 4) ∧
      u.position 3 ≠ u.position 4 ∧ u.lineColumn 9 = u.lineColumn 6 := by
  intro u
  obtain ⟨lexemes, places, ascending, injective, pastEnd⟩ := lineColumn_locates u
  have umlaut : (Cursor.ofString u.text).next .strict =
      .ok (some (⟨.punct, "ü"⟩, ⟨['\r', '\n', '\n', 'b'], ⟨2, 1, 2⟩⟩)) := by cbv
  have lineEnd : Cursor.next .lenient ⟨['\r', '\n', '\n', 'b'], ⟨2, 1, 2⟩⟩ =
      .ok (some (⟨.newline, "\r\n"⟩, ⟨['\n', 'b'], ⟨4, 2, 1⟩⟩)) := by cbv
  have emptyLine : Cursor.next .strict ⟨['\n', 'b'], ⟨4, 2, 1⟩⟩ =
      .ok (some (⟨.newline, "\n"⟩, ⟨['b'], ⟨5, 3, 1⟩⟩)) := by cbv
  have found := lexemes _ _ (.next (by decide) umlaut (.next (by decide) lineEnd
    (.next (by decide) emptyLine (.refl _))))
  have inside : Boundary u.text 3 := ⟨['ü', '\r'], ['\n', '\n', 'b'], by cbv, rfl⟩
  have after : Boundary u.text 4 := ⟨['ü', '\r', '\n'], ['\n', 'b'], by cbv, rfl⟩
  have stop := places ['ü', '\r', '\n', '\n', 'b'] [] (by cbv)
  exact ⟨⟨found.1 _ (.tail _ (.head _)), found.1 _ (.tail _ (.tail _ (.head _)))⟩, found.2, stop,
    ascending inside after (by decide), fun h => absurd (injective inside after h) (by decide),
    pastEnd 9 (by decide)⟩

end ShaderPass.Source
