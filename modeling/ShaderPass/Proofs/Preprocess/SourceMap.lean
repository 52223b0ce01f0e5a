import Mathlib
import ShaderPass.Proofs.Preprocess.Activation

/-!
# Proofs/Preprocess/SourceMap — the source map is exact, byte by byte

A byte of an advancing run is the byte of the unit that it is said to come from; only the line feed
that is put out for a line end of a directive line, or of skipped text, can come from the carriage
return before it.  A byte of any other run comes from the name of a macro, or from the `#` of a
directive that is passed through (`sourceMap_exact`).
-/

namespace ShaderPass.Preprocess

open Source (Piece Run)
open Text (bytes HasAt)

variable {env : Settings} {x : Point} {text : String}

/-- Whether the step at a point puts out a line feed for a line end at an offset of its unit: one of
the line ends of a directive line, or one that is dropped. -/
def Point.PutsLineEnd (x : Point) (offset : Nat) : Prop :=
  (∃ s line after, AtDirective x.frame x.state s line after ∧ offset ∈ line.lineEnds) ∨
    ∃ l c, AtLexeme x.frame x.state l c ∧ x.state.isActive = false ∧ l.kind = .newline ∧
      offset = x.frame.origin.offset

/-- Whether an identifier that a text has at an offset waits at a point to be expanded, and names a
macro there. -/
def Point.NamesMacro (x : Point) (text : String) (offset : Nat) : Prop :=
  ∃ name ∈ x.frame.waiting, name.kind = .identifier ∧ name.origin = ⟨x.frame.unit, offset⟩ ∧
    HasAt text offset name.text ∧ x.state.macros.isDefined name.text = true

/-- Whether the step at a point passes through a directive line whose `#` a text has at an offset. -/
def Point.PassesThrough (x : Point) (text : String) (offset : Nat) : Prop :=
  offset = x.frame.origin.offset ∧ HasAt text offset "#" ∧
    ∃ s line after passed rest, AtDirective x.frame x.state s line after ∧
      Directive.parse? line.text = some (.passThrough passed, rest)

/-- What is known of byte `k` of an emission that is put out at a point: where it comes from in the
text, if its place moves along with the output, and why it is put out, if not. -/
structure Justified (x : Point) (text : String) (e : Emission) (k : Nat) : Prop where
  advancing : e.piece.advancing = true →
    (∃ b, (bytes e.piece.text)[k]? = some b ∧ (bytes text)[e.piece.offsetAt k]? = some b) ∨
      (bytes e.piece.text)[k]? = some 10 ∧ HasAt text (e.piece.offsetAt k) "\r\n" ∧
        x.PutsLineEnd (e.piece.offsetAt k)
  still : e.piece.advancing = false →
    x.NamesMacro text (e.piece.offsetAt k) ∨ x.PassesThrough text (e.piece.offsetAt k)

/-- A piece that a text has at its offset has the bytes of the text. -/
theorem exists_byte {p : Piece} {k : Nat} (ha : p.advancing = true)
    (h : HasAt text p.offset p.text) (hk : k < p.length) :
    ∃ b, (bytes p.text)[k]? = some b ∧ (bytes text)[p.offsetAt k]? = some b := by
  have hlt : k < (bytes p.text).length := hk
  refine ⟨_, List.getElem?_eq_getElem hlt, ?_⟩
  rw [Piece.offsetAt, if_pos ha, h.getElem? hk, List.getElem?_eq_getElem hlt]

/-- The line feed for a line end is the byte of the text, or stands for a carriage return and a line
feed. -/
theorem justified_lineEnd {offset k : Nat} (hat : Text.LineEndAt text offset)
    (hputs : x.PutsLineEnd offset) (hk : k < (Emission.lineEnd x.frame.unit offset).piece.length) :
    Justified x text (.lineEnd x.frame.unit offset) k := by
  have hlength : (Emission.lineEnd x.frame.unit offset).piece.length = 1 := rfl
  obtain rfl : k = 0 := by omega
  refine ⟨fun ha => ?_, fun ha => absurd ha (Bool.noConfusion ·)⟩
  rcases hat with hlf | hcrlf
  · exact .inl (exists_byte ha hlf hk)
  · exact .inr ⟨rfl, hcrlf, hputs⟩

/-- **All that a step gives is justified.** -/
theorem justified_of_gives {e : Emission} {k : Nat} (h : Gives x.frame x.state e)
    (hx : x.frame.Placed x.state text) (hk : k < e.piece.length) : Justified x text e k := by
  cases h with
  | kept waits =>
    obtain ⟨hv, -, hat⟩ := hx.hasAt _ waits
    exact ⟨fun ha => .inl (exists_byte ha hat hk), fun ha => absurd (ha.symm.trans hv) (by decide)⟩
  | @replaced t name elsewhere waits identifier defined place =>
    refine ⟨fun ha => absurd (elsewhere.symm.trans ha) (by decide), fun ha => .inl ?_⟩
    obtain ⟨-, hunit, hat⟩ := hx.hasAt name waits
    have hoffset : (Emission.token t).piece.offsetAt k = name.origin.offset := by
      rw [Piece.offsetAt, ha, if_neg Bool.false_ne_true, ← place]
      rfl
    rw [hoffset]
    exact ⟨name, waits, identifier, by rw [← hunit], hat, defined⟩
  | lineEnd reads mem =>
    have hends := (reads.placed hx).2.2
    exact justified_lineEnd (hends.lineEndAt _ mem) (.inl ⟨_, _, _, reads, mem⟩) hk
  | dropped reads inactive newline =>
    have hat := hx.cursor.lineEndAt (Lexeme.Cursor.reads_of_next reads.next) newline
    exact justified_lineEnd hat (.inr ⟨_, _, reads, inactive, newline, rfl⟩) hk
  | passed reads parses =>
    refine ⟨fun ha => Bool.noConfusion ha, fun _ => .inr ?_⟩
    exact ⟨rfl, (reads.placed hx).2.1, _, _, _, _, _, reads, parses⟩

/-- **The source map of a source that is accepted is exact.**  The runs tile the output.  Each byte
of a run is put out at a point of the run of the source, in the unit that the map names and with a
place in it that is justified. -/
theorem Session.sourceMap_exact {p : Session} {source output : String}
    (h : (p.tryProcess source).1 = .ok output) :
    Run.Tile 0 (p.tryProcess source).2.2.sourceMap.runs.toList output.utf8ByteSize ∧
    ∀ r ∈ (p.tryProcess source).2.2.sourceMap.runs.toList, ∀ i, r.Covers i →
      (p.tryProcess source).2.2.sourceMap.locate i = some (r.unit, r.offsetAt i) ∧
      ∃ u, (p.tryProcess source).2.2.sourceMap.units[r.unit]? = some u ∧
      ∃ x, Reached p.settings (p.entry source) x ∧ x.frame.unit = r.unit ∧
        (∃ e k, Writes p.settings x i e k) ∧
        (r.advancing = true →
          (∃ b, (bytes output)[i]? = some b ∧ (bytes u.text)[r.offsetAt i]? = some b) ∨
            (bytes output)[i]? = some 10 ∧ HasAt u.text (r.offsetAt i) "\r\n" ∧
              x.PutsLineEnd (r.offsetAt i)) ∧
        (r.advancing = false →
          x.NamesMacro u.text (r.offsetAt i) ∨ x.PassesThrough u.text (r.offsetAt i)) := by
  obtain ⟨t, runs, completes, rfl, hmap⟩ := completes_of_tryProcess h
  have records := Source.Map.records_map t.units t.pieces
  rw [hmap]
  refine ⟨records.tile, fun r hr i hi => ?_⟩
  obtain ⟨piece, k, hat, hunit, hadvancing, hoffset⟩ := records.exact r hr i hi
  have hlt : i < t.size := Nat.lt_of_lt_of_le hi.2 ((Run.start_le_of_tile records.tile).2 r hr).2
  obtain ⟨x, hreached, e, l, hwrites⟩ := putsOut_entry runs hlt
  have hx := completes_of_reached hreached completes
  obtain ⟨rfl, rfl⟩ : e.piece = piece ∧ l = k :=
    Prod.mk.inj (Option.some.inj ((at?_of_writes hx hwrites).1.symm.trans hat))
  obtain ⟨⟨text, hplaced⟩, s, hruns, hgrows⟩ := hx
  obtain ⟨start, es, hputs, hmem, -, hat'⟩ := id hwrites
  obtain ⟨hgives, hi, hordered, -⟩ := ordered_of_puts hputs hplaced hruns
  have hxunit := hordered.unit _ (List.mem_map_of_mem hmem)
  have hjust := justified_of_gives (hgives e hmem) hplaced (Piece.mem_of_at? hat').2
  have hbyte := Piece.bytes_output hat
  have hlocate := Source.Map.locate_map t.units hat hlt
  refine ⟨hlocate.trans (by rw [hunit, hoffset]), ⟨x.frame.name, text⟩, ?_, x, hreached,
    hxunit.symm.trans hunit.symm, ⟨e, l, hwrites⟩, ?_, ?_⟩
  · rw [State.sourceMap, Source.Map.units_map, hunit, hxunit]
    exact ((grows_of_runs hruns hplaced).trans hgrows).unit hplaced.unit
  · rw [State.output, hbyte, hoffset, hadvancing]
    exact hjust.advancing
  · rw [hoffset, hadvancing]
    exact hjust.still

/-- A macro with an argument, a directive line that ends in a carriage return and a line feed, and a
directive that is passed through.  The byte at index 11 is the one of the replacement, and has its
place where the macro is named. -/
theorem Session.sourceMap_exact_apply :
    let source := "#define F(x) x\r\n#pragma a\nF(b) c"
    let p := Session.new.tryProcess source
    p.1 = .ok "\n#pragma a\nb c" ∧ Run.Tile 0 p.2.2.sourceMap.runs.toList 14 ∧
      p.2.2.sourceMap.locate 11 = some (0, 26) ∧
      ∃ x, Reached Session.new.settings (Session.new.entry source) x ∧
        (x.NamesMacro source 26 ∨ x.PassesThrough source 26) := by
  intro source p
  have h : p.1 = .ok "\n#pragma a\nb c" := by cbv
  have mem : ⟨11, 12, 0, 26, false⟩ ∈ p.2.2.sourceMap.runs.toList := by
    have runs : p.2.2.sourceMap.runs.toList = [⟨0, 1, 0, 14, true⟩, ⟨1, 10, 0, 16, false⟩,
      ⟨10, 11, 0, 25, true⟩, ⟨11, 12, 0, 26, false⟩, ⟨12, 14, 0, 30, true⟩] := by cbv
    rw [runs]
    decide
  have unit : p.2.2.sourceMap.units[0]? = some ⟨"shader", source⟩ := by cbv
  obtain ⟨tile, each⟩ := Session.sourceMap_exact h
  obtain ⟨place, u, hu, x, reached, -, -, -, still⟩ := each _ mem 11 ⟨by decide, by decide⟩
  obtain rfl := Option.some.inj (hu.symm.trans unit)
  exact ⟨h, tile, place, x, reached, still rfl⟩

end ShaderPass.Preprocess
