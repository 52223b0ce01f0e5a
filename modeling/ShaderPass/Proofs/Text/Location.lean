import Mathlib.Data.List.Induction
import ShaderPass.Text.Location

/-!
# Proofs/Text/Location — what a location says of the text before it

    a b ⏎ ü c │ …        7 bytes, 1 line feed, 2 characters after it:  offset 6, line 2, column 3

A location that is moved over some characters, one after the other, is the place after them: the offset
counts their bytes, the line their line feeds, and the column those that come after the last line feed
(`isAfter_advanceAll`).
-/

namespace ShaderPass.Location

open Text (byteLength)

variable {l : Location} {pre cs : List Char}

/-- The number of characters after the last line feed. -/
def columns (cs : List Char) : Nat := (cs.reverse.takeWhile (· != '\n')).length

/-- Whether a location is the place in a text after some characters at its front. -/
structure IsAfter (l : Location) (pre : List Char) : Prop where
  offset : l.offset = byteLength pre
  line : l.line = 1 + pre.count '\n'
  column : l.column = 1 + columns pre

/-- The line grows by the line feeds that are read. -/
theorem line_advanceAll (l : Location) (cs : List Char) :
    (l.advanceAll cs).line = l.line + cs.count '\n' := by
  induction cs generalizing l with
  | nil => rfl
  | cons c cs ih =>
    show ((l.advance c).advanceAll cs).line = _
    rw [ih, List.count_cons, advance]
    by_cases hc : c = '\n'
    · rw [if_pos hc, if_pos (beq_iff_eq.2 hc)]
      show l.line + 1 + _ = _
      omega
    · rw [if_neg hc, if_neg (mt beq_iff_eq.1 hc)]
      rfl

theorem columns_append_singleton (cs : List Char) (c : Char) :
    columns (cs ++ [c]) = if c = '\n' then 0 else columns cs + 1 := by
  rw [columns, List.reverse_append, List.reverse_singleton, List.singleton_append]
  by_cases hc : c = '\n'
  · rw [if_pos hc, List.takeWhile_cons_of_neg (by simp [hc]), List.length_nil]
  · rw [if_neg hc, List.takeWhile_cons_of_pos (by simp [hc]), List.length_cons, columns]

/-- Characters without a line feed are columns of the line that they are on. -/
theorem columns_append (h : '\n' ∉ cs) (pre : List Char) :
    columns (pre ++ cs) = columns pre + cs.length := by
  have hcs : ∀ c ∈ cs.reverse, (c != '\n') = true := fun c hc =>
    bne_iff_ne.2 fun heq => h (heq ▸ List.mem_reverse.1 hc)
  rw [columns, List.reverse_append, List.takeWhile_append_of_pos hcs, List.length_append,
    List.length_reverse, Nat.add_comm, columns]

theorem column_advanceAll (pre : List Char) :
    (origin.advanceAll pre).column = 1 + columns pre := by
  induction pre using List.reverseRecOn with
  | nil => rfl
  | append_singleton pre c ih =>
    have step : origin.advanceAll (pre ++ [c]) = (origin.advanceAll pre).advance c :=
      advanceAll_append ..
    rw [step, columns_append_singleton, advance]
    by_cases hc : c = '\n'
    · rw [if_pos hc, if_pos hc]
    · rw [if_neg hc, if_neg hc]
      exact (congrArg (· + 1) ih).trans (Nat.add_assoc ..)

/-- **Reading from the start of a text moves the location to the place after what is read.** -/
theorem isAfter_advanceAll (pre : List Char) : (origin.advanceAll pre).IsAfter pre :=
  ⟨(offset_advanceAll origin pre).trans (Nat.zero_add _), line_advanceAll origin pre,
    column_advanceAll pre⟩

end ShaderPass.Location
