/-!
# Source/Search — the last of the indices that satisfy a test

A table in ascending order is asked which of its entries is the last at or before a place.  The
entries at or before it are the first ones, so that halving the table finds the last of them
(`lastIndex_eq`).
-/

namespace ShaderPass.Source

/-- The last index from `base` up to `base + size - 1` that satisfies `p`, where the indices that
do are the first ones; `base` if there is none. -/
def lastIndex (p : Nat → Bool) (base size : Nat) : Nat :=
  if size ≤ 1 then base
  else
    let half := size / 2
    lastIndex p (if p (base + half) then base + half else base) (size - half)
termination_by size

/-- Halving finds the last index that satisfies `p`, where the indices that do are those up to
`k`. -/
theorem lastIndex_eq {p : Nat → Bool} {k : Nat} (hp : ∀ j, p j = decide (j ≤ k)) :
    ∀ size base, base ≤ k → k < base + size → lastIndex p base size = k := by
  intro size
  induction size using Nat.strongRecOn with
  | ind size ih =>
    intro base hb hk
    rw [lastIndex]
    by_cases hsize : size ≤ 1
    · rw [if_pos hsize]
      omega
    · rw [if_neg hsize]
      simp only [hp]
      by_cases h : base + size / 2 ≤ k
      · rw [if_pos (decide_eq_true h)]
        exact ih _ (by omega) _ h (by omega)
      · rw [if_neg (by simpa using h)]
        exact ih _ (by omega) _ hb (by omega)

end ShaderPass.Source
