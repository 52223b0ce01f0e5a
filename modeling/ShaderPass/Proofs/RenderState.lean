import ShaderPass.Proofs.Dictionary
import ShaderPass.RenderState

/-!
# Proofs/RenderState — two maps that are one

    constants   CullMode ↦ Off                    CullMode ↦ Off
    variables                  DepthBias ↦ b      DepthBias ↦ b      one map

States are kept in two maps, but an assignment to one of them takes the key away from the other.  So
no key is in both (`exclusive_ofList`), and together they are one map, in which the last assignment to
a key counts, in whichever form it and those before it were made (`get?_ofList`).
-/

namespace ShaderPass.States

variable {s : States} {key : StateKey} {value : StateValue}

/-! ## One assignment -/

@[simp] theorem get?_empty (key : StateKey) : empty.get? key = none := rfl

/-- **After an assignment its key has the new value, and every other key what it had.** -/
@[simp] theorem get?_insert (s : States) (key other : StateKey) (value : StateValue) :
    (s.insert key value).get? other = if other = key then some value else s.get? other := by
  by_cases h : other = key
  · cases value <;> simp [get?, insert, h]
  · cases value <;> simp [get?, insert, h]

/-- Whether no key has both a constant and a variable. -/
def Exclusive (s : States) : Prop :=
  ∀ key, s.constants.get? key = none ∨ s.names.get? key = none

theorem exclusive_empty : empty.Exclusive := fun _ => .inl rfl

/-- **An assignment leaves no key with both a constant and a variable.** -/
theorem Exclusive.insert (h : s.Exclusive) (key : StateKey) (value : StateValue) :
    (s.insert key value).Exclusive := by
  intro other
  by_cases hkey : other = key
  · cases value <;> simp [States.insert, hkey]
  · cases value <;> simpa [States.insert, hkey] using h other

/-! ## Any number of assignments -/

theorem ofList_append_singleton (entries : List StateEntry) (e : StateEntry) :
    ofList (entries ++ [e]) = (ofList entries).insert e.1 e.2 := by
  rw [ofList, insertAll, List.foldl_append]
  rfl

/-- **No sequence of assignments leaves a key with both a constant and a variable.** -/
theorem exclusive_ofList (entries : List StateEntry) : (ofList entries).Exclusive := by
  induction entries using List.reverseRecOn with
  | nil => exact exclusive_empty
  | append_singleton entries e ih => exact ofList_append_singleton entries e ▸ ih.insert e.1 e.2

/-- **The last assignment to a key counts**, whatever forms it and those before it have. -/
theorem get?_ofList (entries : List StateEntry) (key : StateKey) :
    (ofList entries).get? key = lastValue? entries key := by
  induction entries using List.reverseRecOn with
  | nil => rfl
  | append_singleton entries e ih =>
    rw [ofList_append_singleton, get?_insert, lastValue?_append_singleton, ih]

/-! ## The number of keys -/

/-- The keys that have a value, those with constants first. -/
def keys (s : States) : List StateKey :=
  s.constants.entries.map (·.1) ++ s.names.entries.map (·.1)

theorem length_keys (s : States) : s.keys.length = s.size := by
  rw [keys, List.length_append, List.length_map, List.length_map]
  rfl

theorem mem_keys : key ∈ s.keys ↔ (s.get? key).isSome = true := by
  rw [keys, List.mem_append, ← Dictionary.isSome_get?, ← Dictionary.isSome_get?, get?]
  cases s.constants.get? key <;> simp

theorem Exclusive.nodup_keys (h : s.Exclusive) : s.keys.Nodup := by
  refine List.nodup_append.2 ⟨s.constants.nodup, s.names.nodup, ?_⟩
  rintro key hconstant _ hvariable rfl
  rw [← Dictionary.isSome_get?] at hconstant hvariable
  rcases h key with hnone | hnone
  · simp [hnone] at hconstant
  · simp [hnone] at hvariable

/-- **There are as many states as there are different keys among the assignments.** -/
theorem size_ofList (entries : List StateEntry) :
    (ofList entries).size = (entries.map (·.1)).dedup.length := by
  rw [← length_keys]
  refine length_eq_dedup (exclusive_ofList entries).nodup_keys fun key => ?_
  rw [mem_keys, get?_ofList, isSome_lastValue?]

end ShaderPass.States
