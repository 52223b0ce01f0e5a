/-!
# Dictionary — values under keys, at most one for each key

A dictionary is a list of entries whose keys are all different.  Inserting a value under a key
replaces the one it had (`get?_insert`), so a dictionary made of a list of entries has for each key
the value of the last entry with it (`get?_ofList_append`).
-/

namespace ShaderPass

/-- Values under keys; the entry inserted last stands first. -/
structure Dictionary (Key Value : Type) where
  entries : List (Key × Value)
  nodup : (entries.map (·.1)).Nodup
  deriving DecidableEq, Repr

namespace Dictionary

variable {Key Value : Type}

/-- The dictionary without entries. -/
def empty : Dictionary Key Value := ⟨[], List.nodup_nil⟩

instance : Inhabited (Dictionary Key Value) := ⟨empty⟩

/-- The number of keys. -/
def size (d : Dictionary Key Value) : Nat := d.entries.length

variable [DecidableEq Key]

/-- The value under a key. -/
def get? (d : Dictionary Key Value) (key : Key) : Option Value := d.entries.lookup key

/-- The entries of other keys. -/
def others (d : Dictionary Key Value) (key : Key) : List (Key × Value) :=
  d.entries.filter (·.1 ≠ key)

/-- Takes the value of a key away. -/
def erase (d : Dictionary Key Value) (key : Key) : Dictionary Key Value :=
  ⟨d.others key, (List.filter_sublist.map _).nodup d.nodup⟩

/-- Puts a value under a key, in place of the one it had. -/
def insert (d : Dictionary Key Value) (key : Key) (value : Value) : Dictionary Key Value :=
  ⟨(key, value) :: d.others key,
    List.nodup_cons.2 ⟨by simp [others], (List.filter_sublist.map _).nodup d.nodup⟩⟩

/-- Inserts entries one after the other. -/
def insertAll (d : Dictionary Key Value) (entries : List (Key × Value)) : Dictionary Key Value :=
  entries.foldl (fun d entry => d.insert entry.1 entry.2) d

/-- The dictionary of some entries; of those with one key the last counts. -/
def ofList (entries : List (Key × Value)) : Dictionary Key Value := empty.insertAll entries

@[simp] theorem get?_empty (key : Key) : (empty : Dictionary Key Value).get? key = none := rfl

theorem lookup_others (d : Dictionary Key Value) {key other : Key} (h : other ≠ key) :
    (d.others key).lookup other = d.get? other := by
  rw [others, get?]
  generalize d.entries = entries
  induction entries with
  | nil => rfl
  | cons e es ih =>
    rw [List.filter_cons, List.lookup_cons]
    by_cases hk : e.1 = key
    · simpa [hk, beq_false_of_ne h] using ih
    · rw [if_pos (by simpa using hk), List.lookup_cons, ih]

/-- After an insertion its key has the new value, and every other key what it had. -/
@[simp] theorem get?_insert (d : Dictionary Key Value) (key other : Key) (value : Value) :
    (d.insert key value).get? other = if other = key then some value else d.get? other := by
  rw [insert]
  rw [get?, List.lookup_cons]
  by_cases h : other = key
  · simp [h]
  · rw [beq_false_of_ne h, if_neg h]
    exact d.lookup_others h

/-- After its value is taken away a key has none, and every other key has what it had. -/
@[simp] theorem get?_erase (d : Dictionary Key Value) (key other : Key) :
    (d.erase key).get? other = if other = key then none else d.get? other := by
  rw [erase]
  by_cases h : other = key
  · rw [if_pos h, get?, List.lookup_eq_none_iff]
    intro e he
    have hne : e.1 ≠ key := of_decide_eq_true (List.mem_filter.1 he).2
    rw [h]
    exact bne_iff_ne.2 hne.symm
  · rw [if_neg h, get?]
    exact d.lookup_others h

/-- The entry added last decides. -/
theorem get?_ofList_append (entries : List (Key × Value)) (key other : Key) (value : Value) :
    (ofList (entries ++ [(key, value)])).get? other =
      if other = key then some value else (ofList entries).get? other := by
  rw [ofList, insertAll, List.foldl_append]
  exact get?_insert _ key other value

end Dictionary

end ShaderPass
