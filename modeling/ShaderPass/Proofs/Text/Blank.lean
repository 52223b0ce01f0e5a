import Mathlib.Data.List.TakeWhile
import ShaderPass.Text.Blank

/-!
# Proofs/Text/Blank — what trimming leaves of a text

    trimEnd  "# a ⏎"   is   "# a"      a first part, with a last character that is not blank

Trimming at the end leaves a first part of a text (`prefix_trimEnd`), which keeps a first character
that is not blank (`head_trimEnd`), and a text that has been trimmed ends in no blank
(`not_isBlank_getLast`).
-/

namespace ShaderPass.Text

variable {s : String} {x : Char}

/-- Trimming at the end takes away blanks alone. -/
theorem exists_trimEnd (s : String) : ∃ after, s.toList = (trimEnd s).toList ++ after ∧
    ∀ x ∈ after, isBlank x = true := by
  refine ⟨(s.toList.reverse.takeWhile isBlank).reverse, ?_, fun x hx => ?_⟩
  · rw [trimEnd, String.toList_ofList, ← List.reverse_append, List.takeWhile_append_dropWhile,
      List.reverse_reverse]
  · exact List.mem_takeWhile_imp (List.mem_reverse.1 hx)

/-- Trimming takes away blanks alone. -/
theorem exists_trim (s : String) : ∃ before after, s.toList = before ++ ((trim s).toList ++ after) ∧
    ∀ x ∈ before ++ after, isBlank x = true := by
  obtain ⟨after, hafter, blank⟩ := exists_trimEnd (trimStart s)
  refine ⟨s.toList.takeWhile isBlank, after, ?_, List.forall_mem_append.2 ⟨fun x hx => ?_, blank⟩⟩
  · rw [trim, ← hafter, trimStart, String.toList_ofList, List.takeWhile_append_dropWhile]
  · exact List.mem_takeWhile_imp hx

theorem prefix_trimEnd (s : String) : (trimEnd s).toList <+: s.toList := by
  obtain ⟨after, hafter, -⟩ := exists_trimEnd s
  exact ⟨after, hafter.symm⟩

theorem mem_of_mem_trimEnd (h : x ∈ (trimEnd s).toList) : x ∈ s.toList :=
  (prefix_trimEnd s).subset h

theorem mem_of_mem_trim (h : x ∈ (trim s).toList) : x ∈ s.toList := by
  have h := mem_of_mem_trimEnd h
  rw [trimStart, String.toList_ofList] at h
  exact (List.dropWhile_sublist isBlank).subset h

/-- Trimming at the end leaves a first character that is not blank. -/
theorem head_trimEnd (hx : isBlank x = false) (cs : List Char) :
    ∃ ds, (trimEnd (String.ofList (x :: cs))).toList = x :: ds := by
  rcases htrim : (trimEnd (String.ofList (x :: cs))).toList with _ | ⟨d, ds⟩
  · rw [trimEnd, String.toList_ofList, String.toList_ofList, List.reverse_eq_nil_iff,
      List.dropWhile_eq_nil_iff] at htrim
    have := htrim x (List.mem_reverse.2 List.mem_cons_self)
    exact absurd this (by simp [hx])
  · have hprefix := prefix_trimEnd (String.ofList (x :: cs))
    rw [htrim, String.toList_ofList] at hprefix
    exact ⟨ds, by rw [(List.cons_prefix_cons.1 hprefix).1]⟩

/-- Blanks at the end are trimmed. -/
theorem trimEnd_append_blanks {blanks : List Char} (h : ∀ x ∈ blanks, isBlank x = true)
    (cs : List Char) : trimEnd (String.ofList (cs ++ blanks)) = trimEnd (String.ofList cs) := by
  have hreverse : ∀ x ∈ blanks.reverse, isBlank x = true := fun x hx => h x (List.mem_reverse.1 hx)
  rw [trimEnd, trimEnd, String.toList_ofList, String.toList_ofList, List.reverse_append,
    List.dropWhile_append_of_pos hreverse]

theorem trimEnd_append_blank (hx : isBlank x = true) (cs : List Char) :
    trimEnd (String.ofList (cs ++ [x])) = trimEnd (String.ofList cs) :=
  trimEnd_append_blanks (List.forall_mem_singleton.2 hx) cs

/-- A text that has been trimmed at the end ends in no blank. -/
theorem not_isBlank_getLast_trimEnd : ∀ y ∈ (trimEnd s).toList.getLast?, isBlank y = false := by
  intro y hy
  rw [trimEnd, String.toList_ofList, List.getLast?_reverse] at hy
  have hhead := List.head?_dropWhile_not isBlank s.toList.reverse
  rw [Option.mem_def.1 hy] at hhead
  simpa using hhead

/-- There is nothing to trim at the end of a text that ends in no blank. -/
theorem trimEnd_eq_self (h : ∀ y ∈ s.toList.getLast?, isBlank y = false) : trimEnd s = s := by
  rw [trimEnd]
  rw [← List.head?_reverse] at h
  refine String.toList_injective ?_
  rw [String.toList_ofList]
  cases hs : s.toList.reverse with
  | nil => rw [List.dropWhile_nil, ← hs, List.reverse_reverse]
  | cons y ys =>
    rw [List.dropWhile_cons_of_neg (by simp [h y (by rw [hs]; rfl)]), ← hs, List.reverse_reverse]

end ShaderPass.Text
