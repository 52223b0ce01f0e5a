import Mathlib.Data.List.Dedup
import Mathlib.Data.List.Induction
import Mathlib.Data.List.Perm.Lattice
import ShaderPass.Dictionary

/-!
# Proofs/Dictionary — of the entries with one key the last one counts

    [(a, 1), (b, 2), (a, 3)]      a ↦ 3   b ↦ 2      size 2

What a dictionary holds under a key is the value of the last of its entries with that key
(`get?_ofList`), and it has as many keys as there are different ones among the entries
(`size_ofList`).
-/

namespace ShaderPass

variable {Key Value : Type} [DecidableEq Key] {entries before after : List (Key × Value)} {key : Key}
  {value : Value}

/-! ## The last value of a key -/

/-- The value of the last entry with a key. -/
def lastValue? (entries : List (Key × Value)) (key : Key) : Option Value :=
  entries.reverse.lookup key

@[simp] theorem lastValue?_nil (key : Key) : lastValue? ([] : List (Key × Value)) key = none := rfl

/-- The entry at the end decides about its key. -/
theorem lastValue?_append_singleton (entries : List (Key × Value)) (e : Key × Value) (key : Key) :
    lastValue? (entries ++ [e]) key = if key = e.1 then some e.2 else lastValue? entries key := by
  rw [lastValue?, List.reverse_append, List.reverse_singleton, List.singleton_append,
    List.lookup_cons]
  by_cases h : key = e.1
  · rw [if_pos h, h, beq_self_eq_true]
  · rw [if_neg h, beq_false_of_ne h]
    rfl

/-- **The last value of a key is that of an entry that none with the key comes after.** -/
theorem lastValue?_eq_some_iff : lastValue? entries key = some value ↔
    ∃ before after, entries = before ++ (key, value) :: after ∧ ∀ e ∈ after, e.1 ≠ key := by
  rw [lastValue?, List.lookup_eq_some_iff]
  constructor
  · rintro ⟨after, before, h, hafter⟩
    refine ⟨before.reverse, after.reverse, ?_, fun e he => ?_⟩
    · rw [← List.reverse_reverse entries, h]
      simp
    · exact (bne_iff_ne.1 (hafter e (List.mem_reverse.1 he))).symm
  · rintro ⟨before, after, rfl, hafter⟩
    refine ⟨after.reverse, before.reverse, by simp, fun e he => ?_⟩
    exact bne_iff_ne.2 (hafter e (List.mem_reverse.1 he)).symm

theorem lastValue?_eq_none_iff : lastValue? entries key = none ↔ key ∉ entries.map (·.1) := by
  rw [lastValue?, List.lookup_eq_none_iff, List.mem_map]
  constructor
  · rintro h ⟨e, he, rfl⟩
    exact bne_iff_ne.1 (h e (List.mem_reverse.2 he)) rfl
  · exact fun h e he => bne_iff_ne.2 fun hk => h ⟨e, List.mem_reverse.1 he, hk.symm⟩

theorem isSome_lastValue? : (lastValue? entries key).isSome = true ↔ key ∈ entries.map (·.1) := by
  rw [Option.isSome_iff_ne_none, ne_eq, lastValue?_eq_none_iff, not_not]

/-- The value that counts is that of one of the entries. -/
theorem mem_of_lastValue? (h : lastValue? entries key = some value) : (key, value) ∈ entries := by
  obtain ⟨before, after, rfl, -⟩ := lastValue?_eq_some_iff.1 h
  exact List.mem_append_right _ List.mem_cons_self

/-- Where entries with one key have one value, the value that counts is that of any of them. -/
theorem lastValue?_of_agree (h : ∀ d ∈ entries, ∀ e ∈ entries, d.1 = e.1 → d.2 = e.2) :
    lastValue? entries key = some value ↔ (key, value) ∈ entries := by
  refine ⟨mem_of_lastValue?, fun hmem => ?_⟩
  obtain ⟨v, hv⟩ := Option.isSome_iff_exists.1 (isSome_lastValue?.2 (List.mem_map.2 ⟨_, hmem, rfl⟩))
  exact hv.trans (congrArg some (h _ (mem_of_lastValue? hv) _ hmem rfl))

/-- Where all keys are different the value that counts is that of the entry with the key. -/
theorem lastValue?_of_nodup (h : (entries.map (·.1)).Nodup) :
    lastValue? entries key = some value ↔ (key, value) ∈ entries :=
  lastValue?_of_agree fun _ hd _ he hkey => congrArg Prod.snd (List.inj_on_of_nodup_map h hd he hkey)

/-- A list without repetition is as long as another one with the same members has different ones. -/
theorem length_eq_dedup {keys distinct : List Key} (h : distinct.Nodup)
    (mem : ∀ key, key ∈ distinct ↔ key ∈ keys) : distinct.length = keys.dedup.length := by
  refine ((List.perm_ext_iff_of_nodup h (List.nodup_dedup keys)).2 fun key => ?_).length_eq
  rw [mem, List.mem_dedup]

/-! ## What a dictionary holds -/

namespace Dictionary

variable {d : Dictionary Key Value}

theorem get?_eq_some_iff : d.get? key = some value ↔ (key, value) ∈ d.entries := by
  have nodup : (d.entries.reverse.map (·.1)).Nodup := by
    rw [List.map_reverse]
    exact List.nodup_reverse.2 d.nodup
  have h : lastValue? d.entries.reverse key = some value ↔ _ := lastValue?_of_nodup nodup
  rwa [lastValue?, List.reverse_reverse, List.mem_reverse] at h

/-- What a dictionary holds does not depend on the order of its entries. -/
theorem lastValue?_entries (d : Dictionary Key Value) (key : Key) :
    lastValue? d.entries key = d.get? key :=
  Option.ext fun _ => (lastValue?_of_nodup d.nodup).trans get?_eq_some_iff.symm

theorem isSome_get? : (d.get? key).isSome = true ↔ key ∈ d.entries.map (·.1) := by
  rw [Option.isSome_iff_exists, List.mem_map]
  constructor
  · rintro ⟨value, h⟩
    exact ⟨(key, value), get?_eq_some_iff.1 h, rfl⟩
  · rintro ⟨⟨key, value⟩, h, rfl⟩
    exact ⟨value, get?_eq_some_iff.2 h⟩

/-- **Of the entries that a dictionary is made of, the last one with a key counts.** -/
theorem get?_ofList (entries : List (Key × Value)) (key : Key) :
    (ofList entries).get? key = lastValue? entries key := by
  induction entries using List.reverseRecOn with
  | nil => rfl
  | append_singleton entries e ih =>
    rw [get?_ofList_append entries e.1, lastValue?_append_singleton, ih]

/-- **A dictionary has as many keys as there are different ones among its entries.** -/
theorem size_ofList (entries : List (Key × Value)) :
    (ofList entries).size = (entries.map (·.1)).dedup.length := by
  rw [size, ← List.length_map (·.1)]
  refine length_eq_dedup (ofList entries).nodup fun key => ?_
  rw [← isSome_get?, get?_ofList, isSome_lastValue?]

end Dictionary

end ShaderPass
