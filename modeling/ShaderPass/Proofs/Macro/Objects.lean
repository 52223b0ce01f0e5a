import Mathlib
import ShaderPass.Proofs.Macro.Equations
import ShaderPass.Proofs.Preprocess.Step

/-!
# Proofs/Macro/Objects — without argument lists, each token is expanded on its own

    A ↦ B +      unfold A = unfold B⟨A⟩ ++ +⟨A⟩          ⟨…⟩ what a token hides
    B ↦ A                 = unfold A⟨A, B⟩ ++ +⟨A⟩ = A⟨A, B⟩ +⟨A⟩

Where no macro takes an argument list, what a token becomes does not depend on its neighbours:
`Table.unfold` is plain recursion through the bodies, which ends because a body is unfolded under one
more hidden name.  The queue of expansion gives what the tokens unfold to, one after the other
(`expand_eq_flatMap`), so expansion never fails, goes through a list in any portions with the same
result, and changes nothing when it is done again (`expand_objects`).
-/

namespace ShaderPass.Macro

open Preprocess (Frame State flush)

variable {table : Table} {t u : Token} {d : Definition}

/-- Whether no macro of a table takes an argument list. -/
def Table.ObjectsOnly (table : Table) : Prop := ∀ d ∈ table.entries, d.params = none

theorem Table.ObjectsOnly.params (h : table.ObjectsOnly) (names : table.applicable t = some d) :
    d.params = none := h d (name_notMem_hide names).1

/-! ## Unfolding -/

/-- What a token stands for where no macro takes an argument list: itself, unless it is an identifier
that names a macro and does not hide it; then what the lexemes of the body stand for, which hide what
it hides and its name. -/
def Table.unfold (table : Table) (t : Token) : List Token :=
  match _hd : table.get? t.text with
  | none => [t]
  | some d =>
    if _hn : t.kind = .identifier ∧ t.text ∉ t.hide then
      d.body.flatMap fun l => table.unfold ⟨l, t.origin, false, t.hide ++ [t.text]⟩
    else [t]
termination_by table.rank t.hide
decreasing_by
  have name := Table.name_of_get? _hd
  exact rank_lt (Table.mem_of_get? _hd) (name ▸ _hn.2) (name ▸ by simp) fun h hh => by simp [hh]

theorem unfold_of_none (h : table.applicable t = none) : table.unfold t = [t] := by
  unfold Table.unfold
  split
  next => rfl
  next d hd =>
    refine dif_neg fun hn => ?_
    exact Option.some_ne_none d ((applicable_eq_some_iff.2 ⟨hn.1, hn.2, hd⟩).symm.trans h)

theorem unfold_of_some (h : table.applicable t = some d) :
    table.unfold t = (d.body.map (d.bodyToken t)).flatMap table.unfold := by
  obtain ⟨kind, shown, names⟩ := applicable_eq_some_iff.1 h
  rw [Table.unfold, names, List.flatMap_map]
  refine (dif_pos ⟨kind, shown⟩).trans ?_
  unfold Definition.bodyToken
  rw [Table.name_of_get? names]

/-- What a token unfolds to is replaced by no macro. -/
theorem applicable_of_mem_unfold (h : u ∈ table.unfold t) : table.applicable u = none := by
  induction hr : table.rank t.hide using Nat.strongRecOn generalizing t with
  | ind r ih =>
    subst hr
    cases hd : table.applicable t with
    | none =>
      rw [unfold_of_none hd] at h
      exact List.mem_singleton.1 h ▸ hd
    | some d =>
      rw [unfold_of_some hd] at h
      obtain ⟨v, hv, hu⟩ := List.mem_flatMap.1 h
      obtain ⟨l, -, rfl⟩ := List.mem_map.1 hv
      obtain ⟨hmem, hname⟩ := name_notMem_hide hd
      exact ih _ (rank_lt hmem hname (by simp [Definition.bodyToken])
        fun h hh => by simp [Definition.bodyToken, hh]) hu rfl

/-! ## Expansion -/

/-- A macro without parameters is replaced by its body. -/
theorem substitute_of_params (h : d.params = none) :
    d.substitute t [] = d.body.map (d.bodyToken t) := by
  have noArgument : ∀ l, d.argumentFor l [] = none := fun l => by
    simp [Definition.argumentFor, Definition.paramIndex, h]
  rw [substitute_eq]
  simp only [noArgument, Option.map_none, Option.getD_none]
  exact List.map_eq_flatMap.symm

/-- **Expansion gives what the tokens unfold to, one after the other.** -/
theorem expand_eq_flatMap (h : table.ObjectsOnly) (queue : List Token) :
    expand table queue = .ok (queue.flatMap table.unfold) := by
  -- a replacement goes back into the queue, but as it unfolds to what the token unfolds to, the
  -- concatenation is the same before and after
  induction queue using expand.induct table with
  | case1 =>
    rw [expand]
    rfl
  | case2 t ts hd ih =>
    rw [expand_of_keeps (keeps_of_none hd), ih, List.flatMap_cons, unfold_of_none hd]
    rfl
  | case3 t ts d hd hp ih =>
    rw [expand_object hd hp, ih, substitute_of_params hp, List.flatMap_append, List.flatMap_cons,
      unfold_of_some hd]
  | case4 _ _ _ hd hp | case5 _ _ _ hd hp | case6 _ _ _ hd hp | case7 _ _ _ hd hp
  | case8 _ _ _ hd hp => exact absurd (h.params hd) hp

/-- What has been unfolded unfolds to itself. -/
theorem flatMap_unfold_flatMap (queue : List Token) :
    (queue.flatMap table.unfold).flatMap table.unfold = queue.flatMap table.unfold := by
  have stays : ∀ u ∈ queue.flatMap table.unfold, table.unfold u = [u] := fun u hu => by
    obtain ⟨t, -, hu⟩ := List.mem_flatMap.1 hu
    exact unfold_of_none (applicable_of_mem_unfold hu)
  generalize queue.flatMap table.unfold = out at stays
  induction out with
  | nil => rfl
  | cons u out ih =>
    obtain ⟨hu, hout⟩ := List.forall_mem_cons.1 stays
    rw [List.flatMap_cons, hu, ih hout]
    rfl

/-- What the waiting tokens of a frame put out is what they unfold to. -/
theorem flush_eq_ok (f : Frame) (s : State) (h : s.macros.ObjectsOnly) : flush f s =
    .ok ((f.waiting.reverse.flatMap s.macros.unfold).foldl State.emitToken s) := by
  rw [flush, expand_eq_flatMap h]

/-- **Where no macro takes an argument list, expansion is plain recursion on each token**, under its
own hide set.  So it always succeeds; it makes of two lists put together what it makes of each, and
so it is all the same whether the tokens that wait in a frame are put out at once or in two portions;
and what it gives it leaves as it is. -/
theorem expand_objects (h : table.ObjectsOnly) :
    (∀ queue, expand table queue = .ok (queue.flatMap table.unfold)) ∧
    (∀ queue more, ∃ out out', expand table queue = .ok out ∧ expand table more = .ok out' ∧
      expand table (queue ++ more) = .ok (out ++ out')) ∧
    (∀ queue out, expand table queue = .ok out → expand table out = .ok out) ∧
    ∀ (f : Frame) (s : State) (early late : List Token), s.macros = table →
      flush { f with waiting := late ++ early } s =
        flush { f with waiting := early } s >>= flush { f with waiting := late } := by
  refine ⟨expand_eq_flatMap h, fun queue more => ?_, fun queue out hout => ?_, ?_⟩
  · refine ⟨_, _, expand_eq_flatMap h queue, expand_eq_flatMap h more, ?_⟩
    rw [expand_eq_flatMap h, List.flatMap_append]
  · obtain rfl := Except.ok.inj ((expand_eq_flatMap h queue).symm.trans hout)
    rw [expand_eq_flatMap h, flatMap_unfold_flatMap]
  · rintro f s early late rfl
    have macros : ∀ tokens : List Token, (tokens.foldl State.emitToken s).macros = s.macros :=
      fun tokens => by rw [s.emitTokens_eq]
    have objects : ∀ tokens : List Token, (tokens.foldl State.emitToken s).macros.ObjectsOnly :=
      fun tokens => (macros tokens).symm ▸ h
    rw [flush_eq_ok _ s h, flush_eq_ok _ s h, List.reverse_append, List.flatMap_append,
      List.foldl_append]
    refine Eq.trans ?_ (flush_eq_ok _ _ (objects _)).symm
    rw [macros]

/-- Two macros that stand for each other, and one of them once more. -/
theorem expand_objects_apply :
    let table := (Table.empty.define ⟨"A", none, [⟨.identifier, "B"⟩]⟩).define
      ⟨"B", none, [⟨.identifier, "A"⟩, ⟨.identifier, "C"⟩]⟩
    let a : Token := ⟨⟨.identifier, "A"⟩, ⟨0, 0⟩, true, []⟩
    let out : List Token := [⟨⟨.identifier, "A"⟩, ⟨0, 0⟩, false, ["A", "B"]⟩,
      ⟨⟨.identifier, "C"⟩, ⟨0, 0⟩, false, ["A", "B"]⟩]
    table.ObjectsOnly ∧ expand table [a] = .ok out ∧ expand table out = .ok out := by
  intro table a out
  have objects : table.ObjectsOnly := by unfold Table.ObjectsOnly; decide
  have expands : expand table [a] = .ok out := by cbv
  obtain ⟨-, -, again, -⟩ := expand_objects objects
  exact ⟨objects, expands, again [a] out expands⟩

end ShaderPass.Macro
