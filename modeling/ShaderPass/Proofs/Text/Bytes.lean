import ShaderPass.Text.Location

/-!
# Proofs/Text/Bytes — a text as the bytes of its UTF-8 form

Offsets count bytes, and a source map speaks of bytes, so two texts are compared byte by byte here.
The bytes of a text put together from two are the bytes of these, and `Text.byteLength` counts them.
A byte of a text is a line feed only where a character is one (`count_lineFeed_bytes`), so that lines can
be told from the bytes.
-/

namespace ShaderPass.Text

@[simp] theorem bytes_append (s t : String) : bytes (s ++ t) = bytes s ++ bytes t := by
  rw [bytes, String.toByteArray_append, ByteArray.data_append, Array.toList_append, bytes, bytes]

@[simp] theorem length_bytes (s : String) : (bytes s).length = s.utf8ByteSize := rfl

theorem utf8ByteSize_ofList (cs : List Char) : (String.ofList cs).utf8ByteSize = byteLength cs := by
  induction cs with
  | nil => rfl
  | cons c cs ih =>
    rw [show c :: cs = [c] ++ cs from rfl, String.ofList_append, String.utf8ByteSize_append, ih,
      byteLength_append]
    simp [byteLength]

theorem length_bytes_ofList (cs : List Char) : (bytes (String.ofList cs)).length = byteLength cs :=
  utf8ByteSize_ofList cs

/-- The bytes after a first part of a text are those of the rest. -/
theorem drop_bytes_ofList (pre rest : List Char) :
    (bytes (String.ofList (pre ++ rest))).drop (byteLength pre) = bytes (String.ofList rest) := by
  rw [String.ofList_append, bytes_append, ← utf8ByteSize_ofList, ← length_bytes, List.drop_left]

/-- A text that is not empty has a byte. -/
theorem utf8ByteSize_pos {s : String} (h : s ≠ "") : 0 < s.utf8ByteSize :=
  Nat.pos_of_ne_zero fun h0 => h (String.utf8ByteSize_eq_zero_iff.1 h0)

/-! ## The bytes of characters -/

theorem bytes_ofList (cs : List Char) :
    bytes (String.ofList cs) = cs.flatMap String.utf8EncodeChar := by
  rw [bytes, String.toByteArray_ofList, List.utf8Encode]
  simp

theorem bytes_eq (s : String) : bytes s = s.toList.flatMap String.utf8EncodeChar := by
  rw [← bytes_ofList, String.ofList_toList]

/-- No byte of another character is a line feed. -/
theorem lineFeed_notMem_utf8EncodeChar {c : Char} (hc : c ≠ '\n') :
    '\n'.toUInt8 ∉ String.utf8EncodeChar c := by
  have hmax : c.val.toNat < 0x110000 := by
    have hv : c.val.toNat.isValidChar := c.valid
    unfold Nat.isValidChar at hv
    omega
  have hne : c.val.toNat ≠ 10 := fun h => hc (Char.toNat_inj.1 h)
  have byte {n : Nat} (hn : n < 256) : '\n'.toUInt8 = UInt8.ofNat n ↔ n = 10 := by
    rw [eq_comm, ← UInt8.toNat_inj, UInt8.toNat_ofNat', Nat.mod_eq_of_lt hn]
    rfl
  simp only [String.utf8EncodeChar]
  generalize c.val.toNat = v at *
  repeat' split
  all_goals simp (disch := omega) only [List.mem_cons, List.not_mem_nil, or_false, byte]
  all_goals omega

/-- **A text has a line feed byte for each of its line feeds**, and no other. -/
theorem count_lineFeed_bytes (cs : List Char) :
    (bytes (String.ofList cs)).count '\n'.toUInt8 = cs.count '\n' := by
  rw [bytes_ofList]
  induction cs with
  | nil => rfl
  | cons c cs ih =>
    rw [List.flatMap_cons, List.count_append, ih, List.count_cons, Nat.add_comm]
    by_cases hc : c = '\n'
    · rw [hc, if_pos (beq_self_eq_true _)]
      rfl
    · rw [if_neg (mt beq_iff_eq.1 hc), List.count_eq_zero.2 (lineFeed_notMem_utf8EncodeChar hc)]

/-! ## A piece of a text at an offset -/

/-- Whether a text has a piece at a byte offset. -/
def HasAt (text : String) (offset : Nat) (piece : String) : Prop :=
  bytes piece <+: (bytes text).drop offset

/-- A text has, byte for byte, what it has at an offset. -/
theorem HasAt.getElem? {text piece : String} {offset k : Nat} (h : HasAt text offset piece)
    (hk : k < piece.utf8ByteSize) : (bytes text)[offset + k]? = (bytes piece)[k]? := by
  obtain ⟨rest, hrest⟩ := h
  rw [← List.getElem?_drop, ← hrest, List.getElem?_append_left (length_bytes piece ▸ hk)]

/-- What a text has at an offset, it has before its end. -/
theorem HasAt.le_size {text piece : String} {offset : Nat} (h : HasAt text offset piece)
    (ho : offset ≤ text.utf8ByteSize) : offset + piece.utf8ByteSize ≤ text.utf8ByteSize := by
  have hlen := h.length_le
  rw [List.length_drop, length_bytes, length_bytes] at hlen
  omega

/-- A text has at the end of its first part what comes next. -/
theorem hasAt_of_toList {text piece : String} {pre rest : List Char}
    (h : text.toList = pre ++ (piece.toList ++ rest)) : HasAt text (byteLength pre) piece := by
  refine ⟨bytes (String.ofList rest), ?_⟩
  rw [← String.ofList_toList (s := text), h, drop_bytes_ofList, String.ofList_append, bytes_append,
    String.ofList_toList]

end ShaderPass.Text
