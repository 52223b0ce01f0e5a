/-!
# Config/Texts — texts under paths, in the order of the paths

The paths are all different and stand in ascending order, so that two collections with the same
texts under the same paths are equal.  Texts are put in one at a time, and a text replaces the one
under its path.
-/

namespace ShaderPass

/-- Puts a text under a path into a list in the order of its paths. -/
def insertText (path text : String) : List (String × String) → List (String × String)
  | [] => [(path, text)]
  | e :: es =>
    if path < e.1 then (path, text) :: e :: es
    else if path = e.1 then (path, text) :: es
    else e :: insertText path text es

/-- Texts under different paths, in ascending order of the paths. -/
structure Texts where
  entries : List (String × String)
  ascending : (entries.map (·.1)).Pairwise (· < ·)
  deriving DecidableEq, Repr

theorem mem_insertText {path text p : String} : ∀ {es : List (String × String)},
    p ∈ (insertText path text es).map (·.1) → p = path ∨ p ∈ es.map (·.1)
  | [], h => .inl (by simpa [insertText] using h)
  | e :: es, h => by
    rw [insertText] at h
    split at h
    next => simpa using h
    next =>
      split at h
      next he =>
        rw [List.map_cons, List.mem_cons] at h
        exact h.imp id fun h => List.mem_cons_of_mem _ h
      next =>
        rw [List.map_cons, List.mem_cons] at h
        rcases h with h | h
        · exact .inr (h ▸ List.mem_cons_self)
        · exact (mem_insertText h).imp id fun h => List.mem_cons_of_mem _ h

theorem ascending_insertText (path text : String) : ∀ {es : List (String × String)},
    (es.map (·.1)).Pairwise (· < ·) → ((insertText path text es).map (·.1)).Pairwise (· < ·)
  | [], _ => by simp [insertText]
  | e :: es, h => by
    have ⟨hlt, hes⟩ := List.pairwise_cons.1 h
    rw [insertText]
    split
    next hp =>
      refine List.pairwise_cons.2 ⟨fun p hm => ?_, h⟩
      rcases List.mem_cons.1 hm with rfl | hm
      · exact hp
      · exact String.lt_trans hp (hlt p hm)
    next hp =>
      split
      next he => exact List.pairwise_cons.2 ⟨fun p hm => he ▸ hlt p hm, hes⟩
      next he =>
        refine List.pairwise_cons.2 ⟨fun p hm => ?_, ascending_insertText path text hes⟩
        rcases mem_insertText hm with rfl | hm
        · exact (Std.lt_trichotomy e.1 p).resolve_right fun h =>
            h.elim (fun h => he h.symm) hp
        · exact hlt p hm

theorem lookup_cons_eq (path text other : String) (es : List (String × String)) :
    ((path, text) :: es).lookup other = if other = path then some text else es.lookup other := by
  rw [List.lookup_cons]
  by_cases h : other = path
  · rw [if_pos h, h, beq_self_eq_true]
  · rw [if_neg h, beq_false_of_ne h]

/-- Of the texts in a list only the one under the path put in changes. -/
theorem lookup_insertText (path text other : String) : ∀ es : List (String × String),
    (insertText path text es).lookup other = if other = path then some text else es.lookup other
  | [] => lookup_cons_eq path text other []
  | (p, t) :: es => by
    rw [insertText]
    split
    next => exact lookup_cons_eq path text other _
    next =>
      split
      next he =>
        obtain rfl : path = p := he
        rw [lookup_cons_eq, lookup_cons_eq]
        split <;> rfl
      next he =>
        rw [lookup_cons_eq, lookup_cons_eq, lookup_insertText path text other es]
        by_cases h : other = path
        · rw [if_pos h, if_pos h, if_neg fun hp => he (h.symm.trans hp)]
        · rw [if_neg h, if_neg h]

namespace Texts

/-- No texts. -/
def empty : Texts := ⟨[], List.Pairwise.nil⟩

instance : Inhabited Texts := ⟨empty⟩

/-- Puts a text under a path, in place of the one there. -/
def insert (t : Texts) (path text : String) : Texts :=
  ⟨insertText path text t.entries, ascending_insertText path text t.ascending⟩

/-- Puts texts in one after the other. -/
def ofList (entries : List (String × String)) : Texts :=
  entries.foldl (fun t entry => t.insert entry.1 entry.2) empty

/-- The text under a path. -/
def get? (t : Texts) (path : String) : Option String := t.entries.lookup path

/-- After a text is put in its path has it, and every other path what it had. -/
@[simp] theorem get?_insert (t : Texts) (path text other : String) :
    (t.insert path text).get? other = if other = path then some text else t.get? other :=
  lookup_insertText path text other t.entries

end Texts

end ShaderPass
