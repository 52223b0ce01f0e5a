/-!
# Macro/Descent — lists that shrink as their first number splits into smaller ones

Replacing a macro takes one token off the front of a queue and puts any number of tokens in its
place; each of them can be replaced fewer times than the one taken off.  With a number for each
token this is a step on lists of numbers: the first number goes, numbers below it come to the
front, and of the others some may be dropped.  No such sequence of steps is endless
(`wellFounded_below`), although a step may make the list longer.
-/

namespace ShaderPass.Macro

/-- One step down: the first number is gone, numbers below it stand at the front, and the rest is
as before or has lost some numbers. -/
inductive Below : List Nat → List Nat → Prop
  | step {n : Nat} {added kept rest : List Nat} (lt : ∀ m ∈ added, m < n)
      (sublist : kept.Sublist rest) : Below (added ++ kept) (n :: rest)

namespace Below

/-- Dropping numbers, the first among them, is a step down. -/
theorem drop (n : Nat) {kept rest : List Nat} (h : kept.Sublist rest) : Below kept (n :: rest) :=
  @step n [] kept rest (fun _ hm => absurd hm List.not_mem_nil) h

/-- Dropping the first number is a step down. -/
theorem tail (n : Nat) (rest : List Nat) : Below rest (n :: rest) :=
  drop n (List.Sublist.refl rest)

/-- Where no sequence of steps from a list is endless, none is from a part of it. -/
theorem acc_sublist {l : List Nat} (h : Acc Below l) : ∀ l', l'.Sublist l → Acc Below l' := by
  induction h with
  | intro l acc ih =>
    intro l' hs
    cases hs with
    | slnil => exact Acc.intro [] acc
    | cons a hs => exact ih _ (tail a _) _ hs
    | cons_cons a hs =>
      refine Acc.intro _ fun y hy => ?_
      cases hy with
      | step lt sub => exact acc _ (step lt (sub.trans hs))

/-- A number can be put in front where all smaller ones can. -/
theorem acc_cons (n : Nat) : ∀ l, Acc Below l → Acc Below (n :: l) := by
  induction n using Nat.strongRecOn with
  | ind n ih =>
    intro l hl
    refine Acc.intro _ fun y hy => ?_
    cases hy with
    | @step _ added kept _ lt sub =>
      have hk := acc_sublist hl kept sub
      clear sub hl
      induction added with
      | nil => exact hk
      | cons m ms ihms =>
        exact ih m (lt m (by simp)) _ (ihms fun k hk => lt k (by simp [hk]))

end Below

/-- **No sequence of steps down is endless.** -/
theorem wellFounded_below : WellFounded Below := by
  refine ⟨fun l => ?_⟩
  induction l with
  | nil => exact Acc.intro [] fun y hy => by cases hy
  | cons n l ih => exact Below.acc_cons n l ih

/-- A list of numbers, ordered by steps down. -/
structure Ranks where
  list : List Nat

instance : WellFoundedRelation Ranks :=
  ⟨InvImage Below Ranks.list, InvImage.wf Ranks.list wellFounded_below⟩

end ShaderPass.Macro
