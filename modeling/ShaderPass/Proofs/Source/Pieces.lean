import ShaderPass.Source.Piece
import ShaderPass.Proofs.Text.Bytes

/-!
# Proofs/Source/Pieces — the source map of an output that is put together from pieces

    pieces ──output──▸ bytes            byte i ──Piece.at?──▸ its piece, its place in it
    pieces ──map────▸ runs              byte i ──Map.locate─▸ unit, offset

Joining runs and halving the list of them lose nothing: the runs **tile** the output and say of each
byte what its piece does (`records_map`), and that is what a byte is found to be (`locate_map`).
-/

namespace ShaderPass.Source

open Text (bytes)

namespace Piece

/-- The piece that a byte of the output belongs to, and the place of the byte in it. -/
def at? : List Piece → Nat → Option (Piece × Nat)
  | [], _ => none
  | p :: ps, i => if i < p.length then some (p, i) else at? ps (i - p.length)

/-- The source offset of a byte of a piece. -/
def offsetAt (p : Piece) (k : Nat) : Nat := if p.advancing then p.offset + k else p.offset

/-- The number of bytes of the output of some pieces. -/
def size (ps : List Piece) : Nat := (output ps).utf8ByteSize

@[simp] theorem size_nil : size [] = 0 := rfl

@[simp] theorem size_append (ps qs : List Piece) : size (ps ++ qs) = size ps + size qs := by
  rw [size, output_append, String.utf8ByteSize_append]; rfl

theorem output_singleton (p : Piece) : output [p] = p.text := by simp [output, String.join]

@[simp] theorem size_cons (p : Piece) (ps : List Piece) : size (p :: ps) = p.length + size ps := by
  rw [show p :: ps = [p] ++ ps from rfl, size_append, size, output_singleton]; rfl

theorem at?_append (ps qs : List Piece) (i : Nat) :
    at? (ps ++ qs) i = if i < size ps then at? ps i else at? qs (i - size ps) := by
  induction ps generalizing i with
  | nil => rfl
  | cons p ps ih =>
    rw [List.cons_append, at?, at?, size_cons, ih]
    by_cases h : i < p.length
    · rw [if_pos h, if_pos (by omega), if_pos h]
    · rw [if_neg h, if_neg h, Nat.sub_sub]
      by_cases h' : i - p.length < size ps
      · rw [if_pos h', if_pos (by omega)]
      · rw [if_neg h', if_neg (by omega)]

/-- Every byte of the output belongs to a piece. -/
theorem exists_at? {ps : List Piece} {i : Nat} (h : i < size ps) :
    ∃ p k, at? ps i = some (p, k) ∧ p ∈ ps ∧ k < p.length := by
  induction ps generalizing i with
  | nil => exact absurd h (Nat.not_lt_zero i)
  | cons p ps ih =>
    rw [at?]
    by_cases hi : i < p.length
    · exact ⟨p, i, if_pos hi, List.mem_cons_self, hi⟩
    · rw [size_cons] at h
      obtain ⟨q, k, hq, hm, hk⟩ := @ih (i - p.length) (by omega)
      exact ⟨q, k, by rw [if_neg hi, hq], List.mem_cons_of_mem p hm, hk⟩

/-- No byte past the end of the output belongs to a piece. -/
theorem at?_eq_none {ps : List Piece} {i : Nat} (h : size ps ≤ i) : at? ps i = none := by
  induction ps generalizing i with
  | nil => rfl
  | cons p ps ih =>
    rw [size_cons] at h
    rw [at?, if_neg (by omega)]
    exact ih (by omega)

theorem lt_size_of_at? {ps : List Piece} {i : Nat} {r : Piece × Nat} (h : at? ps i = some r) :
    i < size ps :=
  Nat.lt_of_not_le fun hle => Option.some_ne_none r (h.symm.trans (at?_eq_none hle))

/-- A byte of the output is that byte of its piece. -/
theorem bytes_output {ps : List Piece} {i : Nat} {p : Piece} {k : Nat} (h : at? ps i = some (p, k)) :
    (bytes (output ps))[i]? = (bytes p.text)[k]? := by
  induction ps generalizing i with
  | nil => simp [at?] at h
  | cons q ps ih =>
    rw [show q :: ps = [q] ++ ps from rfl, output_append, Text.bytes_append, output_singleton]
    rw [at?] at h
    have hq : (bytes q.text).length = q.length := rfl
    by_cases hi : i < q.length
    · rw [if_pos hi] at h
      obtain ⟨rfl, rfl⟩ := Prod.mk.inj (Option.some.inj h)
      exact List.getElem?_append_left (hq ▸ hi)
    · rw [if_neg hi] at h
      rw [List.getElem?_append_right (by omega), hq]
      exact ih h

end Piece

/-! ## Runs that tile an output -/

namespace Run

/-- Whether an output byte is one of the run's. -/
def Covers (r : Run) (i : Nat) : Prop := r.outputStart ≤ i ∧ i < r.outputStop

/-- Runs **tile** a stretch of the output: the first begins at its start, each of the others where
the one before it ends, the last ends at its end, and none is empty. -/
def Tile : Nat → List Run → Nat → Prop
  | start, [], stop => start = stop
  | start, r :: rs, stop => r.outputStart = start ∧ start < r.outputStop ∧ Tile r.outputStop rs stop

theorem tile_append {start mid stop : Nat} {rs ss : List Run} (h : Tile start rs mid)
    (h' : Tile mid ss stop) : Tile start (rs ++ ss) stop := by
  induction rs generalizing start with
  | nil => exact h ▸ h'
  | cons r rs ih => exact ⟨h.1, h.2.1, ih h.2.2⟩

theorem tile_append_singleton {start stop : Nat} {rs : List Run} {r : Run}
    (h : Tile start (rs ++ [r]) stop) :
    Tile start rs r.outputStart ∧ Tile r.outputStart [r] stop := by
  induction rs generalizing start with
  | nil =>
    obtain ⟨rfl, h⟩ := h
    exact ⟨rfl, rfl, h⟩
  | cons s rs ih => exact ⟨⟨h.1, h.2.1, (ih h.2.2).1⟩, (ih h.2.2).2⟩

theorem start_le_of_tile {start stop : Nat} {rs : List Run} (h : Tile start rs stop) :
    start ≤ stop ∧ ∀ r ∈ rs, start ≤ r.outputStart ∧ r.outputStop ≤ stop := by
  induction rs generalizing start with
  | nil => exact ⟨Nat.le_of_eq h, fun r hr => absurd hr List.not_mem_nil⟩
  | cons s rs ih =>
    obtain ⟨hs, hlt, ht⟩ := h
    obtain ⟨hle, ih⟩ := ih ht
    refine ⟨by omega, fun r hr => ?_⟩
    rcases List.mem_cons.1 hr with rfl | hr
    · exact ⟨Nat.le_of_eq hs.symm, hle⟩
    · have := ih r hr
      omega

theorem start_lt_of_tile {start stop : Nat} {rs : List Run} (h : Tile start rs stop) :
    ∀ r ∈ rs, r.outputStart < r.outputStop := by
  induction rs generalizing start with
  | nil => exact fun r hr => absurd hr List.not_mem_nil
  | cons s rs ih =>
    obtain ⟨hs, hlt, ht⟩ := h
    exact List.forall_mem_cons.2 ⟨hs ▸ hlt, ih ht⟩

/-- Every byte of a tiled stretch is in one of the runs; those up to that run start at or before the
byte, and the others after it. -/
theorem exists_covers {start stop i : Nat} {rs : List Run} (h : Tile start rs stop)
    (hi : start ≤ i) (hi' : i < stop) :
    ∃ (k : Nat) (r : Run), rs[k]? = some r ∧ r.Covers i ∧
      ∀ j : Nat, (rs[j]?).any (·.outputStart ≤ i) = decide (j ≤ k) := by
  induction rs generalizing start with
  | nil => exact absurd (Nat.lt_of_le_of_lt hi hi') (by rw [h]; exact Nat.lt_irrefl _)
  | cons s rs ih =>
    obtain ⟨hs, hlt, ht⟩ := h
    by_cases hc : i < s.outputStop
    · refine ⟨0, s, rfl, ⟨by omega, hc⟩, fun j => ?_⟩
      cases j with
      | zero => simp; omega
      | succ j =>
        rw [List.getElem?_cons_succ]
        cases hr : rs[j]? with
        | none => simp
        | some r =>
          have := ((start_le_of_tile ht).2 r (List.mem_of_getElem? hr)).1
          simp only [Option.any_some]
          rw [decide_eq_false (by omega), decide_eq_false (by omega)]
    · obtain ⟨k, r, hk, hr, hj⟩ := ih ht (by omega)
      refine ⟨k + 1, r, by rw [List.getElem?_cons_succ, hk], hr, fun j => ?_⟩
      cases j with
      | zero => simp; omega
      | succ j =>
        rw [List.getElem?_cons_succ, hj j]
        exact decide_eq_decide.2 (by omega)

/-- No two runs of a tiled stretch share a byte. -/
theorem covers_unique {start stop i : Nat} {rs : List Run} (h : Tile start rs stop) {r s : Run}
    (hr : r ∈ rs) (hs : s ∈ rs) (hri : r.Covers i) (hsi : s.Covers i) : r = s := by
  induction rs generalizing start with
  | nil => exact absurd hr List.not_mem_nil
  | cons t rs ih =>
    have later : ∀ u ∈ rs, u.Covers i → ¬t.Covers i := fun u hu hui hti => by
      have := ((start_le_of_tile h.2.2).2 u hu).1
      have := hui.1
      have := hti.2
      omega
    rcases List.mem_cons.1 hr with hrt | hr <;> rcases List.mem_cons.1 hs with hst | hs
    · exact hrt.trans hst.symm
    · exact absurd (hrt ▸ hri) (later s hs hsi)
    · exact absurd (hst ▸ hsi) (later r hr hri)
    · exact ih h.2.2 hr hs

end Run

/-! ## Recording pieces -/

namespace Map

/-- A map that says of an output what its pieces do. -/
structure Records (m : Map) (ps : List Piece) : Prop where
  tile : Run.Tile 0 m.runs.toList (Piece.size ps)
  exact : ∀ r ∈ m.runs.toList, ∀ i, r.Covers i → ∃ p k, Piece.at? ps i = some (p, k) ∧
    r.unit = p.unit ∧ r.advancing = p.advancing ∧ r.offsetAt i = p.offsetAt k

variable {m : Map} {ps : List Piece}

/-- What a run says of a byte within it. -/
theorem offsetAt_of_covers {r : Run} {i : Nat} (h : r.Covers i) :
    r.offsetAt i = if r.advancing then r.sourceOffset + (i - r.outputStart) else r.sourceOffset := by
  obtain ⟨h, h'⟩ := h
  rw [Run.offsetAt, Run.length, Nat.min_eq_left (by omega)]

/-- The run of a piece says of its bytes what the piece does. -/
theorem offsetAt_run {p : Piece} {start i : Nat} (h : (p.run start).Covers i) :
    (p.run start).offsetAt i = p.offsetAt (i - start) := offsetAt_of_covers h

theorem at?_last {p : Piece} {i : Nat} (h : Piece.size ps ≤ i) (h' : i < Piece.size ps + p.length) :
    Piece.at? (ps ++ [p]) i = some (p, i - Piece.size ps) := by
  rw [Piece.at?_append, if_neg (by omega), Piece.at?, if_pos (by omega)]

theorem at?_earlier {p : Piece} {i : Nat} (h : i < Piece.size ps) :
    Piece.at? (ps ++ [p]) i = Piece.at? ps i := by rw [Piece.at?_append, if_pos h]

/-- A run of the map says the same of a longer output. -/
theorem Records.exact_earlier (h : m.Records ps) {r : Run} (hr : r ∈ m.runs.toList) {i : Nat}
    (hi : r.Covers i) (p : Piece) : ∃ q k, Piece.at? (ps ++ [p]) i = some (q, k) ∧
      r.unit = q.unit ∧ r.advancing = q.advancing ∧ r.offsetAt i = q.offsetAt k := by
  have hlt := Nat.lt_of_lt_of_le hi.2 ((Run.start_le_of_tile h.tile).2 r hr).2
  rw [at?_earlier hlt]
  exact h.exact r hr i hi

theorem records_push_new (h : m.Records ps) {p : Piece} (hp : 0 < p.length) :
    Records { m with runs := m.runs.push (p.run (Piece.size ps)) } (ps ++ [p]) := by
  have hsize : Piece.size (ps ++ [p]) = Piece.size ps + p.length := by simp
  constructor
  · rw [Array.toList_push, hsize]
    exact Run.tile_append h.tile ⟨rfl, Nat.lt_add_of_pos_right hp, rfl⟩
  · intro r hr i hi
    rw [Array.toList_push, List.mem_append, List.mem_singleton] at hr
    rcases hr with hr | rfl
    · exact h.exact_earlier hr hi p
    · exact ⟨p, _, at?_last hi.1 hi.2, rfl, rfl, offsetAt_run hi⟩

/-- Where a run goes on from the last one, the joined run says of the bytes of both what they did. -/
theorem records_push_joined {last : Run} {init : List Run} (h : m.Records ps)
    (hm : m.runs.toList = init ++ [last]) {p : Piece}
    (hc : last.continuedBy (p.run (Piece.size ps)) = true) (runs : Array Run)
    (hruns : runs.toList = init ++ [{ last with outputStop := Piece.size ps + p.length }]) :
    Records { m with runs } (ps ++ [p]) := by
  have hsize : Piece.size (ps ++ [p]) = Piece.size ps + p.length := by simp
  have htile := h.tile
  rw [hm] at htile
  obtain ⟨hinit, -, hlt, hstop⟩ := Run.tile_append_singleton htile
  have hstop : last.outputStop = Piece.size ps := hstop
  simp only [Run.continuedBy, Piece.run, Bool.and_eq_true, beq_iff_eq] at hc
  obtain ⟨⟨⟨-, hunit⟩, hadv⟩, hnext⟩ := hc
  constructor
  · rw [hruns, hsize]
    have hlt' : last.outputStart < Piece.size ps + p.length := by omega
    exact Run.tile_append hinit ⟨rfl, hlt', rfl⟩
  · intro r hr i hi
    rw [hruns, List.mem_append, List.mem_singleton] at hr
    rcases hr with hr | rfl
    · exact h.exact_earlier (hm ▸ List.mem_append_left _ hr) hi p
    · have hi' : last.outputStart ≤ i ∧ i < Piece.size ps + p.length := hi
      by_cases hlast : i < last.outputStop
      · obtain ⟨q, k, hq, hu, ha, ho⟩ :=
          h.exact_earlier (hm ▸ List.mem_append_right _ List.mem_cons_self) ⟨hi'.1, hlast⟩ p
        refine ⟨q, k, hq, hu, ha, ho ▸ ?_⟩
        rw [offsetAt_of_covers hi, offsetAt_of_covers ⟨hi'.1, hlast⟩]
      · refine ⟨p, i - Piece.size ps, at?_last (by omega) hi'.2, hunit, hadv, ?_⟩
        rw [offsetAt_of_covers hi, Piece.offsetAt, ← hadv]
        rw [Run.nextOffset, Run.length] at hnext
        show (if last.advancing = true then last.sourceOffset + (i - last.outputStart) else _) = _
        split at hnext
        next ht => rw [if_pos ht, if_pos ht]; omega
        next hf => rw [if_neg hf, if_neg hf, hnext]

/-- **Recording one more piece keeps the map exact.** -/
theorem records_push (h : m.Records ps) (p : Piece) :
    (m.push (p.run (Piece.size ps))).Records (ps ++ [p]) := by
  unfold push
  split
  next he =>
    have hp : p.length = 0 := by
      have : Piece.size ps = Piece.size ps + p.length := he
      omega
    exact ⟨by simpa [hp] using h.tile, fun r hr i hi => h.exact_earlier hr hi p⟩
  next hne =>
    have hp : 0 < p.length := Nat.pos_of_ne_zero fun h0 => hne (by simp [Piece.run, h0])
    split
    next last hlast =>
      split
      next hc =>
        obtain ⟨init, hinit⟩ :=
          List.getLast?_eq_some_iff.1 ((Array.getLast?_toList _).trans hlast)
        refine records_push_joined h hinit hc _ ?_
        rw [Array.toList_push, Array.toList_pop, hinit, List.dropLast_concat]
        rfl
      next => exact records_push_new h hp
    next => exact records_push_new h hp

theorem records_record (qs : List Piece) : ∀ {m : Map} {ps : List Piece}, m.Records ps →
    (Piece.record (Piece.size ps) m qs).Records (ps ++ qs) := by
  induction qs with
  | nil => intro m ps h; rwa [List.append_nil]
  | cons q qs ih =>
    intro m ps h
    have hr := ih (records_push h q)
    simp only [Piece.size_append, Piece.size_cons, Piece.size_nil, Nat.add_zero] at hr
    rw [Piece.record]
    rwa [List.append_assoc] at hr

/-- **The map of some pieces says of their output what they do.** -/
theorem records_map (units : Array Unit) (ps : List Piece) : (Piece.map units ps).Records ps := by
  have nothing : (⟨units, #[]⟩ : Map).Records [] := ⟨rfl, fun _ hr => absurd hr List.not_mem_nil⟩
  exact records_record ps nothing

theorem units_push (m : Map) (r : Run) : (m.push r).units = m.units := by
  unfold push
  repeat' split
  all_goals rfl

theorem units_record (ps : List Piece) : ∀ (start : Nat) (m : Map),
    (Piece.record start m ps).units = m.units := by
  induction ps with
  | nil => intro start m; rfl
  | cons p ps ih => intro start m; rw [Piece.record, ih, units_push]

@[simp] theorem units_map (units : Array Unit) (ps : List Piece) :
    (Piece.map units ps).units = units := units_record ps 0 _

/-! ## Looking bytes up -/

/-- The run that a byte is found in is the one that covers it. -/
theorem runAt_of_covers (h : m.Records ps) {r : Run} (hr : r ∈ m.runs.toList) {i : Nat}
    (hi : r.Covers i) : m.runAt i = some r := by
  have hlt := Nat.lt_of_lt_of_le hi.2 ((Run.start_le_of_tile h.tile).2 r hr).2
  obtain ⟨k, s, hk, hs, hj⟩ := Run.exists_covers h.tile (Nat.zero_le i) hlt
  have hsize : k < m.runs.size := (List.getElem?_eq_some_iff.1 hk).1
  have hindex : lastIndex (fun k => (m.runs[k]?).any (·.outputStart ≤ i)) 0 m.runs.size = k :=
    lastIndex_eq (fun j => by rw [← hj j, Array.getElem?_toList]) _ 0 (Nat.zero_le k) (by omega)
  rw [runAt, hindex, ← Array.getElem?_toList, hk,
    Run.covers_unique h.tile (List.mem_of_getElem? hk) hr hs hi]

/-- **A byte of an output is found at the place its piece says.** -/
theorem locate_map (units : Array Unit) {i : Nat} {p : Piece} {k : Nat}
    (h : Piece.at? ps i = some (p, k)) (hi : i < Piece.size ps) :
    (Piece.map units ps).locate i = some (p.unit, p.offsetAt k) := by
  have hm := records_map units ps
  obtain ⟨_, r, hr, hc, -⟩ := Run.exists_covers hm.tile (Nat.zero_le i) hi
  have hr := List.mem_of_getElem? hr
  obtain ⟨q, l, hq, hu, -, ho⟩ := hm.exact r hr i hc
  obtain ⟨rfl, rfl⟩ := Prod.mk.inj (Option.some.inj (hq.symm.trans h))
  rw [locate, runAt_of_covers hm hr hc, Option.map_some, hu, ho]

/-- An index past the end of an output has the run of its last byte. -/
theorem runAt_past_end (h : m.Records ps) {i : Nat} (hi : Piece.size ps ≤ i) :
    m.runAt i = m.runAt (Piece.size ps - 1) := by
  have same : (fun k : Nat => (m.runs[k]?).any (·.outputStart ≤ i)) =
      fun k => (m.runs[k]?).any (·.outputStart ≤ Piece.size ps - 1) := by
    funext k
    cases hr : m.runs[k]? with
    | none => rfl
    | some r =>
      have hmem := List.mem_of_getElem? (Array.getElem?_toList.trans hr)
      have hlt := Run.start_lt_of_tile h.tile r hmem
      have hle := ((Run.start_le_of_tile h.tile).2 r hmem).2
      simp only [Option.any_some]
      exact decide_eq_decide.2 (by omega)
  rw [runAt, runAt, same]

/-- One past the last byte of a run, it says the place just after that byte. -/
theorem offsetAt_past_end {r : Run} {i j : Nat} (h : r.Covers j) (hj : j + 1 = r.outputStop)
    (hi : j < i) : r.offsetAt i = if r.advancing then r.offsetAt j + 1 else r.offsetAt j := by
  have := h.1
  rw [offsetAt_of_covers h, Run.offsetAt, Run.length, Nat.min_eq_right (by omega)]
  split <;> omega

/-- **An index past the end of an output is found just after its last byte.** -/
theorem locate_past_end (units : Array Unit) {p : Piece} {i k : Nat}
    (h : Piece.at? ps (Piece.size ps - 1) = some (p, k)) (hi : Piece.size ps ≤ i) :
    (Piece.map units ps).locate i = some (p.unit, p.offsetAt (k + 1)) := by
  have hm := records_map units ps
  have hlt := Piece.lt_size_of_at? h
  obtain ⟨_, r, hr, hc, -⟩ := Run.exists_covers hm.tile (Nat.zero_le (Piece.size ps - 1)) hlt
  have hr := List.mem_of_getElem? hr
  have hstop := ((Run.start_le_of_tile hm.tile).2 r hr).2
  obtain ⟨q, l, hq, hu, hadv, ho⟩ := hm.exact r hr _ hc
  obtain ⟨rfl, rfl⟩ := Prod.mk.inj (Option.some.inj (hq.symm.trans h))
  have hlast : Piece.size ps - 1 + 1 = r.outputStop := by
    have := hc.2
    omega
  have hpast := offsetAt_past_end hc hlast (i := i) (by omega)
  rw [locate, runAt_past_end hm hi, runAt_of_covers hm hr hc, Option.map_some, hu, hpast, ho, hadv,
    Piece.offsetAt, Piece.offsetAt]
  split <;> rfl

/-- **Every index has a place in a piece, or just after one**, where the output is not empty: one
past the end has the place after the last byte. -/
theorem exists_locate (units : Array Unit) (hps : 0 < Piece.size ps) (i : Nat) :
    ∃ j p k l, Piece.at? ps j = some (p, k) ∧ l ≤ p.length ∧
      (Piece.map units ps).locate i = some (p.unit, p.offsetAt l) := by
  by_cases hi : i < Piece.size ps
  · obtain ⟨p, k, hat, -, hk⟩ := Piece.exists_at? hi
    exact ⟨i, p, k, k, hat, Nat.le_of_lt hk, locate_map units hat hi⟩
  · have hlt : Piece.size ps - 1 < Piece.size ps := by omega
    obtain ⟨p, k, hat, -, hk⟩ := Piece.exists_at? hlt
    exact ⟨_, p, k, k + 1, hat, hk, locate_past_end units hat (Nat.le_of_not_lt hi)⟩

/-- In the map of an output without bytes nothing is found. -/
theorem locate_of_size_zero (units : Array Unit) (hps : Piece.size ps = 0) (i : Nat) :
    (Piece.map units ps).locate i = none := by
  have hm := records_map units ps
  have hruns : (Piece.map units ps).runs.toList = [] := by
    refine List.eq_nil_iff_forall_not_mem.2 fun r hr => ?_
    have := Run.start_lt_of_tile hm.tile r hr
    have := ((Run.start_le_of_tile hm.tile).2 r hr).2
    omega
  rw [locate, runAt, ← Array.getElem?_toList, hruns]
  rfl

/-- The map of an output without bytes knows no place. -/
theorem position_of_size_zero (units : Array Unit) (hps : Piece.size ps = 0) (i : Nat) :
    (Piece.map units ps).position i = .unknown := by
  rw [position, position?, locate_of_size_zero units hps]
  rfl

end Map

end ShaderPass.Source
