import ShaderPass.Text.Slice
import ShaderPass.Proofs.Text.Bytes

/-!
# Proofs/Text/Slice — a stretch is there just between two boundaries

    pre · piece · post       ▲ a boundary after the bytes of pre, and one after those of the piece
-/

namespace ShaderPass.Text

variable {text : String} {pre piece post cs : List Char} {n start stop : Nat}

theorem dropBytes_append (pre post : List Char) : dropBytes (byteLength pre) (pre ++ post) = some post := by
  induction pre with
  | nil => rw [byteLength, dropBytes]; rfl
  | cons c pre ih =>
    have := c.utf8Size_pos
    obtain ⟨n, hn⟩ : ∃ n, c.utf8Size + byteLength pre = n + 1 := ⟨_, (Nat.succ_pred (by omega)).symm⟩
    rw [byteLength, hn, List.cons_append, dropBytes, if_pos (by omega), ← hn, Nat.add_sub_cancel_left, ih]

theorem takeBytes_append (piece post : List Char) :
    takeBytes (byteLength piece) (piece ++ post) = some piece := by
  induction piece with
  | nil => rw [byteLength, takeBytes]
  | cons c piece ih =>
    have := c.utf8Size_pos
    obtain ⟨n, hn⟩ : ∃ n, c.utf8Size + byteLength piece = n + 1 := ⟨_, (Nat.succ_pred (by omega)).symm⟩
    rw [byteLength, hn, List.cons_append, takeBytes, if_pos (by omega), ← hn, Nat.add_sub_cancel_left,
      ih]
    rfl

/-- Bytes that can be dropped are those of characters that stand first. -/
theorem exists_of_dropBytes (h : dropBytes n cs = some post) :
    ∃ pre, cs = pre ++ post ∧ byteLength pre = n := by
  fun_induction dropBytes n cs with
  | case1 => exact ⟨[], Option.some.inj h, rfl⟩
  | case2 => cases h
  | case3 n c cs hc ih =>
    obtain ⟨pre, rfl, hpre⟩ := ih h
    exact ⟨c :: pre, rfl, by rw [byteLength]; omega⟩
  | case4 => cases h

/-- Bytes that can be taken are those of characters that stand first. -/
theorem exists_of_takeBytes (h : takeBytes n cs = some piece) :
    ∃ post, cs = piece ++ post ∧ byteLength piece = n := by
  fun_induction takeBytes n cs generalizing piece with
  | case1 => exact ⟨_, by rw [← Option.some.inj h]; rfl, by rw [← Option.some.inj h]; rfl⟩
  | case2 => cases h
  | case3 n c cs hc ih =>
    obtain ⟨piece, hpiece, rfl⟩ := Option.map_eq_some_iff.1 h
    obtain ⟨post, rfl, hlen⟩ := ih hpiece
    exact ⟨post, rfl, by rw [byteLength]; omega⟩
  | case4 => cases h

/-- Whether a piece is what stands in a text from one byte offset up to another. -/
def StandsAt (text : String) (start stop : Nat) (piece : String) : Prop :=
  ∃ pre post, text.toList = pre ++ (piece.toList ++ post) ∧ byteLength pre = start ∧
    start + byteLength piece.toList = stop

/-- **A stretch of a text is what stands there.** -/
theorem slice?_eq_some_iff {s : String} : slice? text start stop = some s ↔ StandsAt text start stop s := by
  constructor
  · intro h
    rw [slice?] at h
    split at h
    next hle =>
      obtain ⟨piece, hslice, rfl⟩ := Option.map_eq_some_iff.1 h
      obtain ⟨rest, hdrop, htake⟩ := Option.bind_eq_some_iff.1 hslice
      obtain ⟨pre, htext, hpre⟩ := exists_of_dropBytes hdrop
      obtain ⟨post, rfl, hpiece⟩ := exists_of_takeBytes htake
      rw [StandsAt, String.toList_ofList]
      exact ⟨pre, post, htext, hpre, by omega⟩
    next => cases h
  · rintro ⟨pre, post, htext, rfl, rfl⟩
    rw [slice?, if_pos (Nat.le_add_right _ _), htext, dropBytes_append, Nat.add_sub_cancel_left,
      Option.bind_some, takeBytes_append, Option.map_some, String.ofList_toList]

/-- Whether a byte offset of a text is between two of its characters, or at one of its ends. -/
def Boundary (text : String) (n : Nat) : Prop :=
  ∃ pre post, text.toList = pre ++ post ∧ byteLength pre = n

/-- No offset inside a character is a boundary. -/
theorem not_boundary_inside {c : Char} (htext : text.toList = pre ++ c :: post)
    (hlo : byteLength pre < n) (hhi : n < byteLength pre + c.utf8Size) : ¬Boundary text n := by
  rintro ⟨pre', post', htext', rfl⟩
  obtain ⟨piece, rfl, hpiece⟩ | ⟨piece, rfl, -⟩ :=
    List.append_eq_append_iff.1 (htext.symm.trans htext')
  · cases piece with
    | nil => exact absurd hlo (by simp)
    | cons d piece =>
      obtain ⟨rfl, -⟩ := List.cons.inj hpiece
      rw [byteLength_append, byteLength] at hhi
      omega
  · rw [byteLength_append] at hlo
    omega

theorem byteLength_eq_zero (h : byteLength cs = 0) : cs = [] := by
  obtain _ | ⟨c, cs⟩ := cs
  · rfl
  · have := c.utf8Size_pos
    rw [byteLength] at h
    omega

/-- **Two boundaries in order have a piece of the text between them.** -/
theorem exists_piece (hstart : Boundary text start) (hstop : Boundary text stop)
    (hle : start ≤ stop) : ∃ pre piece post, text.toList = pre ++ (piece ++ post) ∧
      byteLength pre = start ∧ byteLength pre + byteLength piece = stop := by
  obtain ⟨pre, post, htext, rfl⟩ := hstart
  obtain ⟨pre', post', htext', rfl⟩ := hstop
  obtain ⟨piece, rfl, rfl⟩ | ⟨piece, rfl, rfl⟩ := List.append_eq_append_iff.1 (htext.symm.trans htext')
  · exact ⟨pre, piece, post', htext, rfl, (byteLength_append pre piece).symm⟩
  · rw [byteLength_append] at hle
    have hzero : byteLength piece = 0 := by omega
    obtain rfl := byteLength_eq_zero hzero
    exact ⟨pre', [], post, by simpa using htext', by simp, by simp [byteLength]⟩

theorem utf8ByteSize_eq (text : String) : text.utf8ByteSize = byteLength text.toList := by
  rw [← utf8ByteSize_ofList, String.ofList_toList]

theorem Boundary.le_size (h : Boundary text n) : n ≤ text.utf8ByteSize := by
  obtain ⟨pre, post, htext, rfl⟩ := h
  rw [utf8ByteSize_eq, htext, byteLength_append]
  exact Nat.le_add_right _ _

/-- **A stretch is there between two boundaries in order**, and only there. -/
theorem slice?_isSome_iff : (slice? text start stop).isSome = true ↔
    Boundary text start ∧ Boundary text stop ∧ start ≤ stop := by
  rw [Option.isSome_iff_exists]
  constructor
  · rintro ⟨s, h⟩
    obtain ⟨pre, post, htext, rfl, rfl⟩ := slice?_eq_some_iff.1 h
    refine ⟨⟨pre, _, htext, rfl⟩, ⟨pre ++ s.toList, post, ?_, byteLength_append _ _⟩,
      Nat.le_add_right _ _⟩
    rw [htext, List.append_assoc]
  · rintro ⟨hstart, hstop, hle⟩
    obtain ⟨pre, piece, post, htext, rfl, rfl⟩ := exists_piece hstart hstop hle
    refine ⟨String.ofList piece, slice?_eq_some_iff.2 ⟨pre, post, ?_, rfl, ?_⟩⟩
    · rw [htext, String.toList_ofList]
    · rw [String.toList_ofList]

end ShaderPass.Text
