import Mathlib.Data.List.Chain
import ShaderPass.Proofs.Source.Pieces

/-!
# Proofs/Source/Table — a source map is a table with one line for each byte

    recorded   [0,2) at 5▸   [2,2)   [2,5) at 7▸   [5,7) at 3        ▸ moves along
    joined     [0,───────────────────5) at 5▸      [5,7) at 3
    table       5  6  7  8  9                       3  3             past the end: 3

Stretches of any length are recorded one after the other, and joined where one goes on from the one
before it.  What is found by halving the list of joined runs is what stands in the table that has a
line for each byte of each stretch (`locate_map_eq`), and no run and the next one could be joined
any further (`unjoinable_map`).
-/

namespace ShaderPass.Source

/-- Some bytes of an output with one origin, wherever they are in it. -/
structure Stretch where
  length : Nat
  /-- The index of the unit. -/
  unit : Nat
  /-- The offset in the unit, of the first byte if the stretch is advancing, else of every byte. -/
  offset : Nat
  advancing : Bool
  deriving DecidableEq, Repr

/-- What a table of an output says of one of its bytes. -/
structure Entry where
  unit : Nat
  offset : Nat
  /-- Whether the offset moves along with the output. -/
  advancing : Bool
  deriving DecidableEq, Repr

namespace Entry

/-- Where the byte came from. -/
def place (e : Entry) : Nat × Nat := (e.unit, e.offset)

/-- Where a byte after it would have come from. -/
def next (e : Entry) : Nat × Nat := (e.unit, if e.advancing then e.offset + 1 else e.offset)

end Entry

namespace Stretch

variable {ss : List Stretch}

/-- The run of a stretch that starts at an output index. -/
def run (s : Stretch) (start : Nat) : Run :=
  ⟨start, start + s.length, s.unit, s.offset, s.advancing⟩

/-- Records stretches from an output index on, each where the one before it ends. -/
def record : Nat → Map → List Stretch → Map
  | _, m, [] => m
  | start, m, s :: ss => record (start + s.length) (m.push (s.run start)) ss

/-- The source map of some stretches. -/
def map (units : Array Unit) (ss : List Stretch) : Map := record 0 ⟨units, #[]⟩ ss

/-- What a stretch says of its bytes. -/
def entries (s : Stretch) : List Entry := (List.range s.length).map fun k =>
  ⟨s.unit, if s.advancing then s.offset + k else s.offset, s.advancing⟩

/-- What some stretches say of the bytes of an output, one after the other. -/
def table (ss : List Stretch) : List Entry := ss.flatMap entries

/-! ## A stretch is a piece without its text -/

/-- A piece that is as long as a stretch and comes from the same place. -/
def blank (s : Stretch) : Piece :=
  ⟨String.ofList (List.replicate s.length ' '), s.unit, s.offset, s.advancing⟩

@[simp] theorem length_blank (s : Stretch) : s.blank.length = s.length := by
  rw [blank, Piece.length, Text.utf8ByteSize_ofList]
  induction s.length with
  | zero => rfl
  | succ n ih => rw [List.replicate_succ, Text.byteLength, ih]; exact Nat.add_comm 1 n

theorem record_eq (ss : List Stretch) : ∀ (start : Nat) (m : Map),
    record start m ss = Piece.record start m (ss.map blank) := by
  induction ss with
  | nil => intro start m; rfl
  | cons s ss ih =>
    intro start m
    have hrun : s.blank.run start = s.run start := by rw [Piece.run, length_blank]; rfl
    rw [List.map_cons, record, Piece.record, ih, length_blank, hrun]

theorem map_eq (units : Array Unit) (ss : List Stretch) :
    map units ss = Piece.map units (ss.map blank) := record_eq ss 0 _

theorem length_table (ss : List Stretch) : (table ss).length = Piece.size (ss.map blank) := by
  induction ss with
  | nil => rfl
  | cons s ss ih =>
    rw [List.map_cons, Piece.size_cons, length_blank, ← ih, table, List.flatMap_cons,
      List.length_append, entries, List.length_map, List.length_range]
    rfl

/-- **The line of a byte says what its piece does.** -/
theorem getElem?_table (ss : List Stretch) (i : Nat) : (table ss)[i]? =
    (Piece.at? (ss.map blank) i).map fun (p, k) => ⟨p.unit, p.offsetAt k, p.advancing⟩ := by
  induction ss generalizing i with
  | nil => rfl
  | cons s ss ih =>
    have hlength : s.entries.length = s.length := by
      rw [entries, List.length_map, List.length_range]
    rw [table, List.flatMap_cons, List.map_cons, Piece.at?, length_blank]
    by_cases hi : i < s.length
    · rw [if_pos hi, List.getElem?_append_left (hlength ▸ hi), entries, List.getElem?_map,
        List.getElem?_range hi]
      rfl
    · rw [if_neg hi, List.getElem?_append_right (by omega), hlength]
      exact ih _

end Stretch

/-! ## Runs that are joined as far as they can be -/

namespace Run

variable {r s t : Run}

/-- Whether a run says of the bytes of another what that one says of them. -/
structure Subsumes (t r : Run) : Prop where
  unit : t.unit = r.unit
  advancing : t.advancing = r.advancing
  place : ∀ i, r.Covers i → t.Covers i ∧ t.offsetAt i = r.offsetAt i

/-- Whether no run says what both of two runs say. -/
def Unjoinable (r s : Run) : Prop := ¬∃ t : Run, t.Subsumes r ∧ t.Subsumes s

/-- Of a tiled stretch, a run ends where the next one begins. -/
theorem adjacent_of_tile {start stop : Nat} {rs ss : List Run}
    (h : Tile start (rs ++ r :: s :: ss) stop) :
    r.outputStart < r.outputStop ∧ r.outputStop = s.outputStart ∧ s.outputStart < s.outputStop := by
  induction rs generalizing start with
  | nil =>
    obtain ⟨rfl, hr, hs, hlt, -⟩ := h
    exact ⟨hr, hs.symm, hs ▸ hlt⟩
  | cons q rs ih => exact ih h.2.2

/-- **A run goes on from the one before it if one run says what both do.** -/
theorem continuedBy_of_subsumes (hr : r.outputStart < r.outputStop)
    (hrs : r.outputStop = s.outputStart) (hs : s.outputStart < s.outputStop) (htr : t.Subsumes r)
    (hts : t.Subsumes s) : r.continuedBy s = true := by
  -- the last byte of the one and the first byte of the other
  have hlast : r.Covers (r.outputStop - 1) := ⟨by omega, by omega⟩
  have hfirst : s.Covers s.outputStart := ⟨Nat.le_refl _, hs⟩
  obtain ⟨hcr, hor⟩ := htr.place _ hlast
  obtain ⟨hcs, hos⟩ := hts.place _ hfirst
  rw [Map.offsetAt_of_covers hcr, Map.offsetAt_of_covers hlast, htr.advancing] at hor
  rw [Map.offsetAt_of_covers hcs, Map.offsetAt_of_covers hfirst, ← hts.advancing,
    htr.advancing] at hos
  have hnext : r.nextOffset = s.sourceOffset := by
    have := hcr.1
    rw [nextOffset, length]
    split at hor
    next ha =>
      rw [if_pos ha, if_pos ha] at hos
      rw [if_pos ha]
      omega
    next ha =>
      rw [if_neg ha, if_neg ha] at hos
      rw [if_neg ha, ← hos, ← hor]
  rw [continuedBy, hrs, ← htr.unit, hts.unit, ← htr.advancing, hts.advancing, hnext]
  simp

end Run

namespace Map

open Stretch (table)

variable {m : Map}

/-- Whether each run is kept apart from the one before it because it does not go on from it. -/
def Joined (m : Map) : Prop := m.runs.toList.IsChain fun r s => r.continuedBy s = false

/-- **Recording one more run joins it where it can be joined.** -/
theorem joined_push (h : m.Joined) (r : Run) : (m.push r).Joined := by
  unfold push
  split
  next => exact h
  next =>
    split
    next last hlast =>
      obtain ⟨init, hinit⟩ := List.getLast?_eq_some_iff.1 ((Array.getLast?_toList _).trans hlast)
      rw [Joined, hinit] at h
      split
      next =>
        -- the joined run begins as the last one did, which is all that the run before it looks at
        have hjoined : (m.runs.pop.push { last with outputStop := r.outputStop }).toList =
            init ++ [{ last with outputStop := r.outputStop }] := by
          rw [Array.toList_push, Array.toList_pop, hinit, List.dropLast_concat]
        rw [Joined, hjoined]
        refine h.left_of_append.append (.singleton _) fun q hq s hs => ?_
        obtain rfl := Option.some.inj hs
        exact (List.isChain_append.1 h).2.2 q hq last rfl
      next hc =>
        rw [Joined, Array.toList_push, hinit]
        refine h.append (.singleton _) fun q hq s hs => ?_
        obtain rfl := Option.some.inj hs
        rw [List.getLast?_concat] at hq
        obtain rfl := Option.some.inj hq
        exact eq_false_of_ne_true hc
    next hnone =>
      have hruns : m.runs.toList = [] :=
        List.getLast?_eq_none_iff.1 ((Array.getLast?_toList _).trans hnone)
      rw [Joined, Array.toList_push, hruns]
      exact .singleton r

theorem joined_record (ss : List Stretch) : ∀ {start : Nat} {m : Map}, m.Joined →
    (Stretch.record start m ss).Joined := by
  induction ss with
  | nil => exact fun h => h
  | cons s ss ih => exact fun h => ih (joined_push h _)

/-- **No run and the next one say what one run could say.** -/
theorem unjoinable_map (units : Array Unit) (ss : List Stretch) :
    (Stretch.map units ss).runs.toList.IsChain Run.Unjoinable := by
  have joined : (Stretch.map units ss).Joined := joined_record ss .nil
  have tile := (records_map units (ss.map Stretch.blank)).tile
  rw [← Stretch.map_eq] at tile
  refine List.isChain_iff_forall_rel_of_append_cons_cons.2 fun r s before after hruns => ?_
  rintro ⟨t, htr, hts⟩
  rw [hruns] at tile
  obtain ⟨hr, hrs, hs⟩ := Run.adjacent_of_tile tile
  have hc := List.isChain_iff_forall_rel_of_append_cons_cons.1 joined hruns
  exact Bool.noConfusion (hc.symm.trans (Run.continuedBy_of_subsumes hr hrs hs htr hts))

/-! ## What is found -/

/-- **What is found for an index is what the table says of that byte**, and for an index past the
end what comes after the last byte. -/
theorem locate_map_eq (units : Array Unit) (ss : List Stretch) (i : Nat) :
    (Stretch.map units ss).locate i =
      ((table ss)[i]?.map Entry.place).or ((table ss).getLast?.map Entry.next) := by
  rw [Stretch.map_eq, List.getLast?_eq_getElem?, Stretch.getElem?_table, Stretch.getElem?_table,
    Stretch.length_table]
  by_cases hi : i < Piece.size (ss.map Stretch.blank)
  · obtain ⟨p, k, hat, -, -⟩ := Piece.exists_at? hi
    rw [locate_map units hat hi, hat]
    rfl
  have hi := Nat.le_of_not_lt hi
  rw [Piece.at?_eq_none hi]
  by_cases hsize : Piece.size (ss.map Stretch.blank) = 0
  · rw [locate_of_size_zero units hsize, hsize, Piece.at?_eq_none (Nat.le_of_eq hsize)]
    rfl
  · obtain ⟨p, k, hat, -, -⟩ := Piece.exists_at? (Nat.sub_one_lt hsize)
    rw [locate_past_end units hat hi, hat]
    simp only [Option.map_none, Option.map_some, Option.none_or, Entry.next, Piece.offsetAt]
    split <;> rfl

/-- **A source map finds for each byte what was recorded of it, however it was recorded.**  Whatever
stretches are recorded one after the other, what is found for a byte is what the table of them says,
which has a line for each byte of each stretch; what is found for an index at the end or past it is
the place of the last byte, or the one just after that where the last stretch moves along; and
nothing is found only where no stretch has a byte.  No run and the next one say what one run could
say of both. -/
theorem locates_table (units : Array Unit) (ss : List Stretch) :
    (∀ i, (Stretch.map units ss).locate i =
      ((table ss)[i]?.map Entry.place).or ((table ss).getLast?.map Entry.next)) ∧
    (∀ i, (Stretch.map units ss).locate i = none ↔ ∀ s ∈ ss, s.length = 0) ∧
    (Stretch.map units ss).runs.toList.IsChain Run.Unjoinable := by
  refine ⟨locate_map_eq units ss, fun i => ?_, unjoinable_map units ss⟩
  have nothing : table ss = [] ↔ ∀ s ∈ ss, s.length = 0 := by
    rw [table, List.flatMap_eq_nil_iff]
    refine forall₂_congr fun s _ => ?_
    rw [Stretch.entries, List.map_eq_nil_iff, List.range_eq_nil]
  rw [← nothing, locate_map_eq, Option.or_eq_none_iff, Option.map_eq_none_iff,
    Option.map_eq_none_iff, List.getLast?_eq_none_iff, and_iff_right_of_imp]
  rintro hnil
  rw [hnil]
  rfl

/-- Two stretches that are joined over one without a byte, and one that does not move along. -/
theorem locates_table_apply :
    let m := Stretch.map #[] [⟨2, 0, 5, true⟩, ⟨0, 1, 9, false⟩, ⟨3, 0, 7, true⟩, ⟨2, 0, 3, false⟩]
    m.locate 4 = some (0, 9) ∧ m.locate 6 = some (0, 3) ∧ m.locate 9 = some (0, 3) ∧
      (Stretch.map #[] [⟨0, 1, 9, true⟩]).locate 0 = none := by
  have found := (locates_table #[]
    [⟨2, 0, 5, true⟩, ⟨0, 1, 9, false⟩, ⟨3, 0, 7, true⟩, ⟨2, 0, 3, false⟩]).1
  have nothing := (locates_table #[] [⟨0, 1, 9, true⟩]).2.1
  exact ⟨found 4, found 6, found 9, (nothing 0).2 (List.forall_mem_singleton.2 rfl)⟩

end Map

end ShaderPass.Source
