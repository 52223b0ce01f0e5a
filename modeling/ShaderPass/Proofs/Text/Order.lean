import ShaderPass.Proofs.Text.Bytes

/-!
# Proofs/Text/Order — texts are in the order of their bytes

    é  U+00E9       c3 a9
    €  U+20AC       e2 82 ac        é < €   and   c3 … < e2 …

Texts are compared character by character, and UTF-8 is made so that comparing them byte by byte gives
the same order (`lt_iff_bytes_lt`): more bytes mean a greater first byte, and the bits of a character
are in its bytes from the highest down.
-/

namespace ShaderPass.Text

variable {bs bs' : List UInt8} {cs ds : List Char}

/-- Numbers are in the order of their digits to the base 64. -/
theorem digits_lt {v w : Nat} (h : v < w) : v / 262144 < w / 262144 ∨ v / 262144 = w / 262144 ∧
    (v / 4096 % 64 < w / 4096 % 64 ∨ v / 4096 % 64 = w / 4096 % 64 ∧
      (v / 64 % 64 < w / 64 % 64 ∨ v / 64 % 64 = w / 64 % 64 ∧ v % 64 < w % 64)) := by
  have digits (n : Nat) :
      n = n / 262144 * 262144 + n / 4096 % 64 * 4096 + n / 64 % 64 * 64 + n % 64 := by omega
  have below (n : Nat) : n / 4096 % 64 < 64 ∧ n / 64 % 64 < 64 ∧ n % 64 < 64 := by omega
  have hv := below v
  have hw := below w
  rw [digits v, digits w] at h
  generalize v / 262144 = v₃, v / 4096 % 64 = v₂, v / 64 % 64 = v₁, v % 64 = v₀ at *
  generalize w / 262144 = w₃, w / 4096 % 64 = w₂, w / 64 % 64 = w₁, w % 64 = w₀ at *
  omega

theorem ofNat_cons_lt_cons {a b : Nat} (ha : a < 256) (hb : b < 256) :
    UInt8.ofNat a :: bs < UInt8.ofNat b :: bs' ↔ a < b ∨ a = b ∧ bs < bs' := by
  rw [List.cons_lt_cons_iff, UInt8.lt_iff_toNat_lt, ← UInt8.toNat_inj, UInt8.toNat_ofNat',
    UInt8.toNat_ofNat', Nat.mod_eq_of_lt ha, Nat.mod_eq_of_lt hb]

/-- The bytes of a smaller character are smaller, whatever follows them. -/
theorem utf8EncodeChar_lt {c d : Char} (h : c < d) (bs bs' : List UInt8) :
    String.utf8EncodeChar c ++ bs < String.utf8EncodeChar d ++ bs' := by
  have hlt : c.val.toNat < d.val.toNat := h
  have hmax : d.val.toNat < 0x110000 := by
    have hv : d.val.toNat.isValidChar := d.valid
    unfold Nat.isValidChar at hv
    omega
  have digits := digits_lt hlt
  simp only [String.utf8EncodeChar]
  generalize c.val.toNat = v, d.val.toNat = w at *
  by_cases short : v ≤ 0xffff
  · repeat' split
    all_goals simp (disch := omega) only [List.cons_append, List.nil_append, ofNat_cons_lt_cons]
    all_goals omega
  · have hv : v / 262144 < 8 := by omega
    have hw : w / 262144 < 8 := by omega
    simp (disch := omega) only [if_neg, List.cons_append, List.nil_append, ofNat_cons_lt_cons]
    rw [Nat.mod_eq_of_lt hv, Nat.mod_eq_of_lt hw]
    generalize v / 262144 = v₃, v / 4096 % 64 = v₂, v / 64 % 64 = v₁, v % 64 = v₀ at *
    generalize w / 262144 = w₃, w / 4096 % 64 = w₂, w / 64 % 64 = w₁, w % 64 = w₀ at *
    omega

theorem flatMap_utf8EncodeChar_lt (h : cs < ds) :
    cs.flatMap String.utf8EncodeChar < ds.flatMap String.utf8EncodeChar := by
  induction h with
  | @nil d ds =>
    have nonempty : String.utf8EncodeChar d ≠ [] := by simp
    obtain ⟨b, bs, h⟩ := List.exists_cons_of_ne_nil nonempty
    rw [List.flatMap_nil, List.flatMap_cons, h]
    exact List.nil_lt_cons _ _
  | rel h =>
    rw [List.flatMap_cons, List.flatMap_cons]
    exact utf8EncodeChar_lt h _ _
  | cons _ ih =>
    rw [List.flatMap_cons, List.flatMap_cons]
    exact List.append_left_lt ih

/-- **A text is smaller than another just when its bytes are.** -/
theorem lt_iff_bytes_lt {s t : String} : s < t ↔ bytes s < bytes t := by
  rw [bytes_eq, bytes_eq]
  refine ⟨flatMap_utf8EncodeChar_lt, fun h => ?_⟩
  rcases Std.lt_trichotomy s.toList t.toList with h' | h' | h'
  · exact h'
  · exact absurd (h' ▸ h) (List.lt_irrefl _)
  · exact absurd (flatMap_utf8EncodeChar_lt h') (List.lt_asymm h)

end ShaderPass.Text
