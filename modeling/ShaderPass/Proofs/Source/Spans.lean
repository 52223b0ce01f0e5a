import ShaderPass.Source.Span

/-!
# Proofs/Source/Spans — stretches of a text one after the other

    start ≤ [s₁) ≤ [s₂) ≤ … ≤ stop

Stretches are **in order** between two offsets when each begins where the one before it has ended, or
later.  Then no two of them share a byte, and all are between the offsets.
-/

namespace ShaderPass.Source.Span

variable {a b a' b' : Nat} {s t : Span} {ss ss' : List Span}

/-- Whether a byte is in a stretch. -/
def Covers (s : Span) (i : Nat) : Prop := s.start ≤ i ∧ i < s.stop

/-- Whether a stretch ends before another begins. -/
def Before (s t : Span) : Prop := s.stop ≤ t.start

/-- Whether one of two stretches ends before the other begins. -/
def Apart (s t : Span) : Prop := s.Before t ∨ t.Before s

/-- Whether a stretch is inside another. -/
def Within (s t : Span) : Prop := t.start ≤ s.start ∧ s.start ≤ s.stop ∧ s.stop ≤ t.stop

theorem Apart.symm (h : s.Apart t) : t.Apart s := Or.symm h

/-- Two stretches that share a byte are not apart. -/
theorem not_apart_of_covers {i : Nat} (hs : s.Covers i) (ht : t.Covers i) : ¬s.Apart t := by
  obtain ⟨hs, hs'⟩ := hs
  obtain ⟨ht, ht'⟩ := ht
  rintro (h | h)
  · exact Nat.lt_irrefl i (Nat.lt_of_lt_of_le hs' (Nat.le_trans h ht))
  · exact Nat.lt_irrefl i (Nat.lt_of_lt_of_le ht' (Nat.le_trans h hs))

/-- Whether stretches are one after the other, from an offset on and up to another. -/
def InOrder (start : Nat) : List Span → Nat → Prop
  | [], stop => start ≤ stop
  | s :: ss, stop => start ≤ s.start ∧ s.start ≤ s.stop ∧ InOrder s.stop ss stop

namespace InOrder

theorem le (h : InOrder a ss b) : a ≤ b := by
  induction ss generalizing a with
  | nil => exact h
  | cons s ss ih =>
    obtain ⟨ha, hs, h⟩ := h
    exact Nat.le_trans ha (Nat.le_trans hs (ih h))

theorem mono (h : InOrder a ss b) (ha : a' ≤ a) (hb : b ≤ b') : InOrder a' ss b' := by
  induction ss generalizing a a' with
  | nil => exact Nat.le_trans ha (Nat.le_trans h hb)
  | cons s ss ih =>
    obtain ⟨has, hs, h⟩ := h
    exact ⟨Nat.le_trans ha has, hs, ih h (Nat.le_refl _)⟩

theorem append {m : Nat} (h : InOrder a ss m) (h' : InOrder m ss' b) : InOrder a (ss ++ ss') b := by
  induction ss generalizing a with
  | nil => exact h'.mono h (Nat.le_refl _)
  | cons s ss ih =>
    obtain ⟨ha, hs, h⟩ := h
    exact ⟨ha, hs, ih h⟩

/-- Fewer stretches are in order too. -/
theorem sublist (h : InOrder a ss b) (hs : ss'.Sublist ss) : InOrder a ss' b := by
  induction hs generalizing a with
  | slnil => exact h
  | cons s _ ih =>
    obtain ⟨ha, hs, h⟩ := h
    exact (ih h).mono (Nat.le_trans ha hs) (Nat.le_refl _)
  | cons_cons s _ ih =>
    obtain ⟨ha, hs, h⟩ := h
    exact ⟨ha, hs, ih h⟩

/-- Each of the stretches is between the two offsets. -/
theorem within (h : InOrder a ss b) : ∀ s ∈ ss, s.Within ⟨a, b⟩ := by
  induction ss generalizing a with
  | nil => exact fun _ hs => nomatch hs
  | cons s ss ih =>
    obtain ⟨ha, hs, h⟩ := h
    refine List.forall_mem_cons.2 ⟨⟨ha, hs, h.le⟩, fun t ht => ?_⟩
    exact ⟨Nat.le_trans ha (Nat.le_trans hs (ih h t ht).1), (ih h t ht).2⟩

/-- **Of stretches in order, each ends before the next ones begin.** -/
theorem pairwise (h : InOrder a ss b) : ss.Pairwise Before := by
  induction ss generalizing a with
  | nil => exact .nil
  | cons s ss ih =>
    obtain ⟨-, -, h⟩ := h
    exact .cons (fun t ht => (h.within t ht).1) (ih h)

end InOrder

end ShaderPass.Source.Span
