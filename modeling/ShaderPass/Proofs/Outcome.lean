import Mathlib.Data.List.Forall2

/-!
# Proofs/Outcome — computations that can fail, one after the other

What two computations give one after the other, and what going through a list gives: with each element
a result, or the failure of the first element that has one.
-/

namespace ShaderPass

variable {α β ε : Type} {x : Except ε α} {f : α → Except ε β} {g : α → β}
variable {as : List α} {bs : List β} {b : β} {e : ε}

theorem toOption_eq_some_iff {a : α} : x.toOption = some a ↔ x = .ok a := by
  obtain e | a := x
  · exact ⟨nofun, nofun⟩
  · exact ⟨fun h => congrArg _ (Option.some.inj h), fun h => congrArg _ (Except.ok.inj h)⟩

theorem map_eq_ok : x.map g = .ok b ↔ ∃ a, x = .ok a ∧ g a = b := by
  obtain e | a := x
  · exact ⟨nofun, nofun⟩
  · exact ⟨fun h => ⟨a, rfl, Except.ok.inj h⟩, fun ⟨_, h, hg⟩ => Except.ok.inj h ▸ congrArg _ hg⟩

theorem map_eq_error : x.map g = .error e ↔ x = .error e := by
  obtain e' | a := x
  · exact ⟨fun h => congrArg _ (Except.error.inj h), fun h => congrArg _ (Except.error.inj h)⟩
  · exact ⟨nofun, nofun⟩

/-- Two computations succeed one after the other just if both do. -/
theorem bind_eq_ok : x >>= f = .ok b ↔ ∃ a, x = .ok a ∧ f a = .ok b := by
  obtain e | a := x
  · exact ⟨nofun, nofun⟩
  · exact ⟨fun h => ⟨a, rfl, h⟩, fun ⟨_, h, hf⟩ => Except.ok.inj h ▸ hf⟩

/-- Two computations fail one after the other just if one does, the first one first. -/
theorem bind_eq_error : x >>= f = .error e ↔ x = .error e ∨ ∃ a, x = .ok a ∧ f a = .error e := by
  obtain e' | a := x
  · refine ⟨fun h => .inl (congrArg _ (Except.error.inj h)), ?_⟩
    rintro (h | ⟨_, h, -⟩)
    · exact congrArg _ (Except.error.inj h)
    · cases h
  · refine ⟨fun h => .inr ⟨a, rfl, h⟩, ?_⟩
    rintro (h | ⟨_, h, hf⟩)
    · cases h
    · exact Except.ok.inj h ▸ hf

/-- **Going through a list gives a result for each element.** -/
theorem mapM_eq_ok_iff : as.mapM f = .ok bs ↔ List.Forall₂ (fun a b => f a = .ok b) as bs := by
  induction as generalizing bs with
  | nil =>
    rw [List.forall₂_nil_left_iff]
    exact ⟨fun h => (Except.ok.inj h).symm, fun h => congrArg Except.ok h.symm⟩
  | cons a as ih =>
    rw [List.mapM_cons, bind_eq_ok, List.forall₂_cons_left_iff]
    refine exists_congr fun b => ⟨?_, ?_⟩
    · rintro ⟨hb, h⟩
      obtain ⟨bs', hbs, h⟩ := bind_eq_ok.1 h
      exact ⟨bs', hb, ih.1 hbs, (Except.ok.inj h).symm⟩
    · rintro ⟨bs', hb, hbs, rfl⟩
      exact ⟨hb, bind_eq_ok.2 ⟨bs', ih.2 hbs, rfl⟩⟩

/-- **Going through a list fails as the first element that fails.** -/
theorem exists_of_mapM_eq_error (h : as.mapM f = .error e) : ∃ before a after,
    as = before ++ a :: after ∧ (∀ a' ∈ before, ∃ b, f a' = .ok b) ∧ f a = .error e := by
  induction as with
  | nil => cases h
  | cons a as ih =>
    rw [List.mapM_cons, bind_eq_error] at h
    obtain ha | ⟨b, hb, h⟩ := h
    · exact ⟨[], a, as, rfl, List.forall_mem_nil _, ha⟩
    · obtain h | ⟨bs, -, h⟩ := bind_eq_error.1 h
      · obtain ⟨before, a', after, rfl, earlier, ha'⟩ := ih h
        exact ⟨a :: before, a', after, rfl, List.forall_mem_cons.2 ⟨⟨b, hb⟩, earlier⟩, ha'⟩
      · cases h

end ShaderPass
