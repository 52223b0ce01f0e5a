import ShaderPass.Proofs.Preprocess.Activation

/-!
# Proofs/Preprocess/Places — each byte of an output has a place in a unit

    output   ⋯ b ⋯              byte i
               │ Piece.at?
    piece    ⟨text, unit, offset, …⟩, k
               │
    units    u₀, u₁, ⋯          u = units[unit], offset + k at most the size of u

What a step puts out comes from its own unit, from an offset that is in the text of the unit or just
after it (`place_of_gives`).  So the source map never speaks of a unit that was not read, nor of an
offset past the end of one (`exists_place`).
-/

namespace ShaderPass

theorem Lexeme.Cursor.In.offset_le {c : Lexeme.Cursor} {text : String} (h : c.In text) :
    c.location.offset ≤ text.utf8ByteSize := by
  obtain ⟨pre, htext, hloc⟩ := h
  have start : Location.origin.offset = 0 := rfl
  rw [hloc, Location.offset_advanceAll, start, ← String.ofList_toList (s := text), htext,
    Text.utf8ByteSize_ofList, Text.byteLength_append]
  omega

/-- A line feed that stands for a line end of a text comes from the line end, and what follows it
from the text after that. -/
theorem Text.LineEndAt.offsetAt_le {text : String} {unit offset k : Nat}
    (h : Text.LineEndAt text offset) (hk : k ≤ (Source.Piece.mk "\n" unit offset true).length) :
    (Source.Piece.mk "\n" unit offset true).offsetAt k ≤ text.utf8ByteSize := by
  have hone : k ≤ 1 := hk
  have size : offset + 1 ≤ text.utf8ByteSize := by
    rcases h with h | h
    all_goals
      have hlen := h.length_le
      rw [List.length_drop, Text.length_bytes, Text.length_bytes] at hlen
    · have : "\n".utf8ByteSize = 1 := rfl
      omega
    · have : "\r\n".utf8ByteSize = 2 := rfl
      omega
  exact Nat.le_trans (Nat.add_le_add_left hone offset) size

namespace Preprocess

open Lexeme (Cursor)
open Macro (Token)
open Source (Piece)

variable {env : Settings} {f : Frame} {s t : State} {e : Emission} {text : String} {k i : Nat}
  {root : Point}

theorem Frame.Placed.offset_le (hf : f.Placed s text) {t : Token} (ht : t ∈ f.waiting) :
    t.origin.offset ≤ text.utf8ByteSize :=
  Nat.le_trans t.offset_le_lastOffset (Nat.le_trans (hf.before t ht) hf.cursor.offset_le)

/-- **What a step puts out comes from a place in the text of its unit**, or from its end. -/
theorem place_of_gives (h : Gives f s e) (hf : f.Placed s text) (hk : k ≤ e.piece.length) :
    e.piece.unit = f.unit ∧ e.piece.offsetAt k ≤ text.utf8ByteSize := by
  have cursor : f.cursor.location.offset ≤ text.utf8ByteSize := hf.cursor.offset_le
  cases h with
  | @kept t waits =>
    obtain ⟨verbatim, unit, hasAt⟩ := hf.hasAt t waits
    have offset : (Emission.token t).piece.offsetAt k = t.origin.offset + k := by
      rw [Piece.offsetAt, if_pos (by rw [Emission.piece, verbatim])]
      rfl
    have length : k ≤ t.text.utf8ByteSize := hk
    have size := hasAt.le_size (hf.offset_le waits)
    exact ⟨unit, by omega⟩
  | @replaced t name elsewhere waits identifier defined place =>
    have offset : (Emission.token t).piece.offsetAt k = name.origin.offset := by
      rw [Piece.offsetAt, if_neg (by rw [Emission.piece, elsewhere]; exact Bool.false_ne_true),
        ← place]
      rfl
    exact ⟨(congrArg (·.unit) place).trans (hf.hasAt name waits).2.1, offset ▸ hf.offset_le waits⟩
  | @lineEnd s₁ line after o reads mem =>
    obtain ⟨-, -, ends⟩ := reads.placed hf
    exact ⟨rfl, (ends.lineEndAt o mem).offsetAt_le hk⟩
  | dropped reads _ newline =>
    exact ⟨rfl, (hf.cursor.lineEndAt (Cursor.reads_of_next reads.next) newline).offsetAt_le hk⟩
  | passed => exact ⟨rfl, cursor⟩

/-- **Each byte that a run puts out is of a piece with its place in a unit that has been read.** -/
theorem exists_place (h : Runs env root t) (hroot : root.frame.Placed root.state text)
    (hi : root.state.size ≤ i) (hlt : i < t.size) :
    ∃ p k u, Piece.at? t.pieces i = some (p, k) ∧ t.units[p.unit]? = some u ∧
      ∀ l ≤ p.length, p.offsetAt l ≤ u.text.utf8ByteSize := by
  obtain ⟨x, reached, e, k, writes⟩ := reached_of_runs h .refl hroot i hi hlt
  have completes : Completes env root t := ⟨⟨text, hroot⟩, t, h, .refl t⟩
  have hx := completes_of_reached reached completes
  have hat := (at?_of_writes hx writes).1
  obtain ⟨⟨text, placed⟩, s, runs, grows⟩ := hx
  obtain ⟨start, es, puts, mem, -, hat'⟩ := writes
  have gives := (ordered_of_puts puts placed runs).1 e mem
  have unit := (place_of_gives gives placed (Nat.zero_le _)).1
  exact ⟨e.piece, k, ⟨x.frame.name, text⟩, hat,
    unit ▸ ((grows_of_runs runs placed).trans grows).unit placed.unit,
    fun l hl => (place_of_gives gives placed hl).2⟩

end Preprocess

end ShaderPass
