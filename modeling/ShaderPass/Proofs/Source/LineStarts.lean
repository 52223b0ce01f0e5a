import ShaderPass.Source.Unit
import ShaderPass.Proofs.Text.Slice

/-!
# Proofs/Source/LineStarts — the table of line starts tells what walking over the text does

    text          a b ⏎ ü c ⏎ d
    lineStarts    0     3     7         offset 5:  line 2 starts at 3, and `ü` stands between

The table has an entry for each line feed byte, and no other character has one in its UTF-8 form.  So
where a text is cut, the entries up to the place are the starts of the lines up to it
(`LineCut.lineStarts_eq`); halving finds the last of them, where the line of the place starts
(`LineCut.lineColumn_eq`).  Hence the table gives what is found by walking over all characters
(`lineColumn_eq`).
-/

namespace ShaderPass.Source

open Text (byteLength bytes slice?)

variable {u : Unit} {text : String} {head last post cs : List Char} {c : Char} {bs : List UInt8}
  {offset k s : Nat}

/-! ## The entries of the table -/

theorem startsAfter_append (bs bs' : List UInt8) : ∀ k : Nat,
    startsAfter k (bs ++ bs') = startsAfter k bs ++ startsAfter (k + bs.length) bs' := by
  induction bs with
  | nil => exact fun k => rfl
  | cons b bs ih =>
    intro k
    rw [List.cons_append, startsAfter, startsAfter, ih, List.length_cons, Nat.add_right_comm k 1,
      Nat.add_assoc k]
    split <;> rfl

/-- There is an entry for each line feed byte. -/
theorem length_startsAfter (bs : List UInt8) : ∀ k : Nat,
    (startsAfter k bs).length = bs.count '\n'.toUInt8 := by
  induction bs with
  | nil => exact fun k => rfl
  | cons b bs ih =>
    intro k
    rw [startsAfter, List.count_cons]
    by_cases hb : b = '\n'.toUInt8
    · rw [if_pos hb, if_pos (beq_iff_eq.2 hb), List.length_cons, ih]
    · rw [if_neg hb, if_neg (mt beq_iff_eq.1 hb), ih, Nat.add_zero]

/-- Each entry is after the first byte, and none is after the end. -/
theorem bounds_startsAfter (h : s ∈ startsAfter k bs) : k < s ∧ s ≤ k + bs.length := by
  induction bs generalizing k with
  | nil => cases h
  | cons b bs ih =>
    rw [List.length_cons]
    rw [startsAfter] at h
    split at h
    next =>
      rcases List.mem_cons.1 h with rfl | h
      · omega
      · have := ih h
        omega
    next =>
      have := ih h
      omega

/-- A text has an entry for each of its line feeds. -/
theorem length_startsAfter_ofList (cs : List Char) (k : Nat) :
    (startsAfter k (bytes (String.ofList cs))).length = cs.count '\n' := by
  rw [length_startsAfter, Text.count_lineFeed_bytes]

theorem startsAfter_eq_nil (h : '\n' ∉ cs) (k : Nat) :
    startsAfter k (bytes (String.ofList cs)) = [] := by
  rw [← List.length_eq_zero_iff, length_startsAfter_ofList, List.count_eq_zero.2 h]

/-- The entries at or before an offset are the first ones. -/
theorem any_getElem?_append {ks ks' : List Nat} (hks : ∀ s ∈ ks, s ≤ offset)
    (hks' : ∀ s ∈ ks', offset < s) (j : Nat) :
    (ks ++ ks')[j]?.any (· ≤ offset) = decide (j < ks.length) := by
  by_cases hj : j < ks.length
  · rw [List.getElem?_append_left hj, List.getElem?_eq_getElem hj, Option.any_some, decide_eq_true hj]
    exact decide_eq_true (hks _ (List.getElem_mem hj))
  · rw [List.getElem?_append_right (Nat.le_of_not_lt hj), decide_eq_false hj]
    cases hs : ks'[j - ks.length]? with
    | none => rfl
    | some s => exact decide_eq_false (Nat.not_le_of_lt (hks' s (List.mem_of_getElem? hs)))

/-! ## The line of a place -/

/-- A text **cut** at a place: the lines before that of the place, what its line has before it, and
what comes after it. -/
structure LineCut (text : String) (head last post : List Char) : Prop where
  toList : text.toList = head ++ last ++ post
  head : head = [] ∨ ∃ before, head = before ++ ['\n']
  last : '\n' ∉ last

namespace LineCut

/-- The cut after a line feed. -/
theorem lineFeed (h : LineCut text head last ('\n' :: post)) :
    LineCut text (head ++ last ++ ['\n']) [] post :=
  ⟨by rw [h.toList, List.append_nil, List.append_assoc _ ['\n'], List.singleton_append],
    .inr ⟨_, rfl⟩, List.not_mem_nil⟩

/-- The cut after another character. -/
theorem next (h : LineCut text head last (c :: post)) (hc : c ≠ '\n') :
    LineCut text head (last ++ [c]) post := by
  refine ⟨?_, h.head, fun hmem => ?_⟩
  · rw [h.toList, ← List.append_assoc head, List.append_assoc _ [c], List.singleton_append]
  · exact (List.mem_append.1 hmem).elim h.last fun hmem => hc (List.mem_singleton.1 hmem).symm

theorem size_eq (h : LineCut text head last post) :
    text.utf8ByteSize = byteLength (head ++ last) + byteLength post := by
  rw [Text.utf8ByteSize_eq, h.toList, Text.byteLength_append]

/-- **The table has the starts of the lines up to a place, and those of the lines after it.** -/
theorem lineStarts_eq (h : LineCut text head last post) : (lineStarts text).toList =
    (0 :: startsAfter 0 (bytes (String.ofList head))) ++
      startsAfter (byteLength (head ++ last)) (bytes (String.ofList post)) := by
  show 0 :: startsAfter 0 (bytes text) = _
  rw [← String.ofList_toList (s := text), h.toList, String.ofList_append, Text.bytes_append,
    startsAfter_append, Text.length_bytes_ofList, String.ofList_append, Text.bytes_append,
    startsAfter_append, startsAfter_eq_nil h.last, List.append_nil, Nat.zero_add, List.cons_append]

/-- The starts of the lines up to a place are one more than the line feeds before it. -/
theorem length_starts (head : List Char) :
    (0 :: startsAfter 0 (bytes (String.ofList head))).length = head.count '\n' + 1 := by
  rw [List.length_cons, length_startsAfter_ofList]

/-- The last of the starts of the lines up to a place is that of its line. -/
theorem getElem?_starts (h : LineCut text head last post) :
    (0 :: startsAfter 0 (bytes (String.ofList head)))[head.count '\n']? = some (byteLength head) := by
  obtain rfl | ⟨before, rfl⟩ := h.head
  · rfl
  · rw [String.ofList_append, Text.bytes_append, startsAfter_append, Text.length_bytes_ofList,
      Nat.zero_add, Text.byteLength_append, List.count_append,
      ← length_startsAfter_ofList before 0]
    exact List.getElem?_concat_length

/-- **Halving the table finds the line of an offset, and where it starts**, if the next line starts
after the offset. -/
theorem lineColumn_eq (h : LineCut u.text head last post) (hsize : offset ≤ u.text.utf8ByteSize)
    (hle : byteLength head ≤ offset)
    (hlt : ∀ s ∈ startsAfter (byteLength (head ++ last)) (bytes (String.ofList post)), offset < s) :
    u.lineColumn offset = (head.count '\n' + 1, ((slice? u.text (byteLength head) offset).map
      (·.length)).getD (offset - byteLength head) + 1) := by
  have upto : ∀ s ∈ 0 :: startsAfter 0 (bytes (String.ofList head)), s ≤ offset := by
    intro s hs
    rcases List.mem_cons.1 hs with rfl | hs
    · exact Nat.zero_le _
    · have := (bounds_startsAfter hs).2
      rw [Text.length_bytes_ofList] at this
      omega
  have line : lastIndex (fun k => (lineStarts u.text)[k]?.any (· ≤ offset)) 0
      (lineStarts u.text).size = head.count '\n' := by
    refine lastIndex_eq (fun j => ?_) _ 0 (Nat.zero_le _) ?_
    · rw [← Array.getElem?_toList, h.lineStarts_eq, any_getElem?_append upto hlt, length_starts]
      exact decide_eq_decide.2 Nat.lt_succ_iff
    · rw [← Array.length_toList, h.lineStarts_eq, List.length_append, length_starts]
      omega
  have start : (lineStarts u.text).getD (head.count '\n') 0 = byteLength head := by
    have := length_starts head
    rw [Array.getD_eq_getD_getElem?, ← Array.getElem?_toList, h.lineStarts_eq,
      List.getElem?_append_left (by omega), h.getElem?_starts, Option.getD_some]
  simp only [Unit.lineColumn, lineColumnAt, Nat.min_eq_left hsize, line, start]

/-- Between two characters, the column counts the characters that the line has before. -/
theorem lineColumn_between (h : LineCut u.text head last post) :
    u.lineColumn (byteLength (head ++ last)) = (head.count '\n' + 1, last.length + 1) := by
  have slice : slice? u.text (byteLength head) (byteLength (head ++ last)) =
      some (String.ofList last) := by
    refine Text.slice?_eq_some_iff.2 ⟨head, post, ?_, rfl, ?_⟩
    · rw [h.toList, String.toList_ofList, List.append_assoc]
    · rw [String.toList_ofList, Text.byteLength_append]
  have hsize := h.size_eq
  have hle := Text.byteLength_append head last
  rw [h.lineColumn_eq (by omega) (by omega) fun s hs => (bounds_startsAfter hs).1, slice,
    Option.map_some, Option.getD_some, String.length_ofList]

/-- Inside a character, the column counts the bytes that the line has before. -/
theorem lineColumn_inside (h : LineCut u.text head last (c :: post))
    (hlo : byteLength (head ++ last) < offset)
    (hhi : offset < byteLength (head ++ last) + c.utf8Size) :
    u.lineColumn offset = (head.count '\n' + 1, offset - byteLength head + 1) := by
  have slice : slice? u.text (byteLength head) offset = none :=
    Option.not_isSome_iff_eq_none.1 fun hsome =>
      Text.not_boundary_inside h.toList hlo hhi (Text.slice?_isSome_iff.1 hsome).2.1
  -- a character with an inside is no line feed, so the next line starts after it
  have hc : '\n' ∉ [c] := by
    intro hmem
    obtain rfl := List.mem_singleton.1 hmem
    have : '\n'.utf8Size = 1 := rfl
    omega
  have hlt : ∀ s ∈ startsAfter (byteLength (head ++ last)) (bytes (String.ofList (c :: post))),
      offset < s := by
    intro s hs
    rw [← List.singleton_append, String.ofList_append, Text.bytes_append, startsAfter_append,
      startsAfter_eq_nil hc, List.nil_append, Text.length_bytes_ofList] at hs
    exact Nat.lt_trans hhi (bounds_startsAfter hs).1
  have hsize := h.size_eq
  have hle := Text.byteLength_append head last
  rw [byteLength] at hsize
  rw [h.lineColumn_eq (by omega) (by omega) hlt, slice, Option.map_none, Option.getD_none]

end LineCut

/-- An offset past the end of a text has the position of the end. -/
theorem lineColumn_past_end (h : u.text.utf8ByteSize ≤ offset) :
    u.lineColumn offset = u.lineColumn u.text.utf8ByteSize := by
  rw [Unit.lineColumn, Unit.lineColumn, Nat.min_eq_right h, Nat.min_self]

/-! ## Walking over the text -/

/-- The line and column `offset` bytes into some characters that start at the given line and
column, `lineBytes` bytes after the start of that line. -/
def lineColumnFrom (line column lineBytes : Nat) : List Char → Nat → Nat × Nat
  | [], _ => (line, column)
  | c :: cs, offset =>
    if offset = 0 then (line, column)
    else if offset < c.utf8Size then (line, lineBytes + offset + 1)
    else if c = '\n' then lineColumnFrom (line + 1) 1 0 cs (offset - c.utf8Size)
    else lineColumnFrom line (column + 1) (lineBytes + c.utf8Size) cs (offset - c.utf8Size)

/-- From a place on, the table gives what the walk from there does. -/
theorem LineCut.lineColumn_eq_from (h : LineCut u.text head last post)
    (hle : byteLength (head ++ last) ≤ offset) :
    u.lineColumn offset = lineColumnFrom (head.count '\n' + 1) (last.length + 1) (byteLength last)
      post (offset - byteLength (head ++ last)) := by
  induction post generalizing head last with
  | nil =>
    have hsize : u.text.utf8ByteSize = byteLength (head ++ last) := h.size_eq
    rw [lineColumn_past_end (hsize ▸ hle), hsize, h.lineColumn_between]
    rfl
  | cons c post ih =>
    rw [lineColumnFrom]
    split
    next here =>
      obtain rfl : offset = byteLength (head ++ last) := by omega
      exact h.lineColumn_between
    next =>
      split
      next inside =>
        have hlength := Text.byteLength_append head last
        rw [h.lineColumn_inside (by omega) (by omega)]
        exact Prod.ext rfl (by omega)
      next beyond =>
        split
        next hc =>
          subst hc
          have hlength : byteLength (head ++ last ++ ['\n'] ++ []) =
              byteLength (head ++ last) + '\n'.utf8Size := by
            rw [List.append_nil, Text.byteLength_append]
            rfl
          have hcount : (head ++ last ++ ['\n']).count '\n' = head.count '\n' + 1 := by
            rw [List.append_assoc, List.count_append, List.count_append, List.count_eq_zero.2 h.last,
              List.count_singleton_self, Nat.zero_add]
          rw [ih h.lineFeed (by omega), hlength, hcount, Nat.sub_sub]
          rfl
        next hc =>
          have hlength : byteLength (head ++ (last ++ [c])) =
              byteLength (head ++ last) + c.utf8Size := by
            rw [← List.append_assoc, Text.byteLength_append]
            rfl
          rw [ih (h.next hc) (by omega), hlength, List.length_append, Text.byteLength_append,
            Nat.sub_sub]
          rfl

/-- **The table gives what walking over all characters does.** -/
theorem lineColumn_eq (u : Unit) (offset : Nat) :
    u.lineColumn offset = lineColumnFrom 1 1 0 u.text.toList offset :=
  LineCut.lineColumn_eq_from ⟨rfl, .inl rfl, List.not_mem_nil⟩ (Nat.zero_le _)

end ShaderPass.Source
