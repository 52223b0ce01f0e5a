import Mathlib
import ShaderPass.Proofs.Lexeme.Rescan
import ShaderPass.Proofs.Text.Location

/-!
# Proofs/Lexeme/Tiling — the lexemes of a text lie side by side

    text       a b ␣ /* x ⏎ y */ c " d ⏎
    lexemes   │a b│␣│/* x ⏎ y */│c│▴ stop: a quote that nothing closes
    from       1:1 1:3 1:4       2:5 2:6

However a text is read, one lexeme after the other and each in either mode, each lexeme begins where the
one before it ends, and that is at the place after all the characters before it.  In one mode the reading
ends at the end of the text, or at a fault, whose place is the one after all the lexemes before it
(`lexemes_tile`).
-/

namespace ShaderPass

namespace Lexeme.Cursor

variable {mode : Mode} {modes : List Mode} {c c' d stop : Cursor} {l : Lexeme}
  {ls ms : List (Lexeme × Location)} {text : String}

/-! ## Reading again and again -/

/-- Reading some lexemes one after the other, each in one of some modes and from its location, leads
from one cursor to another. -/
inductive ReadsAll (modes : List Mode) : Cursor → List (Lexeme × Location) → Cursor → Prop
  | refl (c : Cursor) : ReadsAll modes c [] c
  | next {mode : Mode} {c c' d : Cursor} {l : Lexeme} {ls : List (Lexeme × Location)}
      (mem : mode ∈ modes) (next : c.next mode = .ok (some (l, c'))) (rest : ReadsAll modes c' ls d) :
      ReadsAll modes c ((l, c.location) :: ls) d

/-- The characters of some lexemes that are read. -/
def charsRead (ls : List (Lexeme × Location)) : List Char := chars (ls.map (·.1))

@[simp] theorem charsRead_cons (r : Lexeme × Location) (ls : List (Lexeme × Location)) :
    charsRead (r :: ls) = r.1.text.toList ++ charsRead ls := rfl

theorem charsRead_append (ls ms : List (Lexeme × Location)) :
    charsRead (ls ++ ms) = charsRead ls ++ charsRead ms := by
  rw [charsRead, List.map_append, chars_append, charsRead, charsRead]

/-- What is read is what the text goes on with, and moves the location past it. -/
theorem ReadsAll.split (h : c.ReadsAll modes ls d) : c.rest = charsRead ls ++ d.rest ∧
    d.location = c.location.advanceAll (charsRead ls) := by
  induction h with
  | refl c => exact ⟨rfl, rfl⟩
  | next _ next _ ih =>
    have reads := reads_of_next next
    refine ⟨?_, ?_⟩
    · rw [reads.rest, ih.1, charsRead_cons, List.append_assoc]
    · rw [ih.2, reads.location, charsRead_cons, Location.advanceAll_append]

/-- A lexeme that is read is read at a cursor that the lexemes before it lead to. -/
theorem ReadsAll.exists_reads {before after : List (Lexeme × Location)} {location : Location}
    (h : c.ReadsAll modes ls d) (hls : ls = before ++ (l, location) :: after) :
    ∃ m m', c.ReadsAll modes before m ∧ m.Reads l m' ∧ m.location = location := by
  induction h generalizing before with
  | refl => exact absurd hls.symm (List.append_ne_nil_of_right_ne_nil _ (List.cons_ne_nil _ _))
  | @next mode c c' d l' ls mem next _ ih =>
    cases before with
    | nil =>
      obtain ⟨hr, -⟩ := List.cons.inj hls
      obtain ⟨rfl, rfl⟩ := Prod.mk.inj hr
      exact ⟨c, c', .refl c, reads_of_next next, rfl⟩
    | cons r before =>
      obtain ⟨rfl, tail⟩ := List.cons.inj hls
      obtain ⟨m, m', readsAll, reads, hlocation⟩ := ih tail
      exact ⟨m, m', .next mem next readsAll, reads, hlocation⟩

/-! ## Where the reading ends -/

/-- Reading again and again gives what `lexemes` does, and ends where that stops. -/
theorem readsAll_lexemes (mode : Mode) (c : Cursor) :
    c.ReadsAll [mode] (c.lexemes mode).1 (c.lexemes mode).2.1 := by
  induction c using lexemes.induct mode with
  | case1 c fault next => exact lexemes_of_fault next ▸ .refl c
  | case2 c next => exact lexemes_of_atEnd next ▸ .refl c
  | case3 c l c' next _ _ _ _ ih =>
    rw [lexemes_of_next next]
    exact .next (List.mem_singleton_self mode) next ih

/-- The reading stops at the end of the text or at a fault. -/
theorem next_of_lexemes (mode : Mode) (c : Cursor) :
    (c.lexemes mode).2.1.next mode = match (c.lexemes mode).2.2 with
      | some fault => .error fault
      | none => .ok none := by
  induction c using lexemes.induct mode with
  | case1 c fault next => rw [lexemes_of_fault next, next]
  | case2 c next => rw [lexemes_of_atEnd next, next]
  | case3 c l c' next _ _ _ _ ih => rw [lexemes_of_next next, ih]

/-- What is told of a fault is its location. -/
theorem significant_of_fault {fault : Fault} (h : c.next mode = .error fault) :
    c.significant mode = .error (fault, c.location) := by
  rw [significant]
  split
  next h' =>
    cases h.symm.trans h'
    rfl
  next h' => cases h.symm.trans h'
  next h' => cases h.symm.trans h'

/-- **Whatever is read in one mode is read first by every reading in it that goes on to its end.** -/
theorem ReadsAll.prefix_of_stop (h : c.ReadsAll [mode] ls d) (hstop : c.ReadsAll [mode] ms stop)
    (ends : ∀ l c', stop.next mode ≠ .ok (some (l, c'))) : ls <+: ms := by
  induction h generalizing ms with
  | refl => exact List.nil_prefix
  | next mem next _ ih =>
    obtain rfl := List.mem_singleton.1 mem
    cases hstop with
    | refl => exact absurd next (ends _ _)
    | next mem' next' rest =>
      obtain rfl := List.mem_singleton.1 mem'
      cases next.symm.trans next'
      exact List.cons_prefix_cons.2 ⟨rfl, ih rest⟩

/-- No reading is endless: each lexeme leaves less text. -/
theorem wellFounded_next :
    WellFounded fun d c : Cursor => ∃ mode l, c.next mode = .ok (some (l, d)) :=
  Subrelation.wf (fun ⟨_, _, next⟩ => next_rest_lt next)
    (InvImage.wf (fun c : Cursor => c.rest.length) Nat.lt_wfRel.wf)

/-! ## Tiling -/

/-- Some lexemes **tile** a text up to a cursor: each has a character and begins at the place after
those before it, and they put together are the text up to the cursor, which is at the place after
them. -/
structure Tiles (text : String) (ls : List (Lexeme × Location)) (d : Cursor) : Prop where
  nonempty : ∀ r ∈ ls, r.1.text ≠ ""
  begins : ∀ before l location after, ls = before ++ (l, location) :: after →
    location.IsAfter (charsRead before)
  text : text.toList = charsRead ls ++ d.rest
  stop : d.location.IsAfter (charsRead ls)

/-- **Reading a text from its start tiles it**, as far as it is read. -/
theorem tiles_of_readsAll (h : (ofString text).ReadsAll modes ls d) : Tiles text ls d := by
  have isAfter : ∀ {ls : List (Lexeme × Location)} {d : Cursor},
      (ofString text).ReadsAll modes ls d → d.location.IsAfter (charsRead ls) := fun h =>
    h.split.2 ▸ Location.isAfter_advanceAll _
  refine ⟨fun r hr => ?_, fun before l location after hls => ?_, h.split.1, isAfter h⟩
  · obtain ⟨before, after, hls⟩ := List.append_of_mem hr
    obtain ⟨m, m', -, reads, -⟩ := h.exists_reads hls
    exact reads.nonempty
  · obtain ⟨m, m', readsAll, -, rfl⟩ := h.exists_reads hls
    exact isAfter readsAll

/-- At the end of a text all of it has been read. -/
theorem Tiles.charsRead_eq (h : Tiles text ls d) (atEnd : d.next mode = .ok none) :
    charsRead ls = text.toList := by
  rw [h.text, next_eq_none atEnd, List.append_nil]

/-- **Reading a text lexeme by lexeme ends, and tiles the text.**  No reading is endless, and one in
which each lexeme is read in either mode tiles the text as far as it goes, and all of it where it comes
to the end.  In each mode all readings are first parts of one, which comes to the end of the text or to
a cursor that reading fails at.  The location of that cursor is the place after the lexemes before it,
and is what is told of the fault. -/
theorem lexemes_tile (text : String) :
    (WellFounded fun d c : Cursor => ∃ mode l, c.next mode = .ok (some (l, d))) ∧
    (∀ ls d, (ofString text).ReadsAll [.strict, .lenient] ls d → Tiles text ls d ∧
      ∀ mode, d.next mode = .ok none → charsRead ls = text.toList) ∧
    ∀ mode, ∃ ls stop, (ofString text).ReadsAll [mode] ls stop ∧
      (∀ ms d, (ofString text).ReadsAll [mode] ms d → ms <+: ls) ∧
      ((stop.next mode = .ok none ∧ (ofString text).lexemes mode = (ls, stop, none) ∧
          charsRead ls = text.toList) ∨
        ∃ fault, stop.next mode = .error fault ∧
          stop.significant mode = .error (fault, stop.location) ∧
          (ofString text).lexemes mode = (ls, stop, some fault) ∧ Tiles text ls stop ∧
          (mode = .strict → ofText text = .error (fault, stop.location))) := by
  refine ⟨wellFounded_next, fun ls d h => ?_, fun mode => ?_⟩
  · exact ⟨tiles_of_readsAll h, fun mode => (tiles_of_readsAll h).charsRead_eq⟩
  obtain ⟨⟨ls, stop, fault⟩, hlexemes⟩ : ∃ r, (ofString text).lexemes mode = r := ⟨_, rfl⟩
  have reads := readsAll_lexemes mode (ofString text)
  have ends := next_of_lexemes mode (ofString text)
  rw [hlexemes] at reads ends
  refine ⟨ls, stop, reads, fun ms d h => h.prefix_of_stop reads fun l c' next => ?_, ?_⟩
  · cases fault <;> cases ends.symm.trans next
  · cases fault with
    | none => exact .inl ⟨ends, hlexemes, (tiles_of_readsAll reads).charsRead_eq ends⟩
    | some fault =>
      refine .inr ⟨fault, ends, significant_of_fault ends, hlexemes, tiles_of_readsAll reads, ?_⟩
      rintro rfl
      rw [ofText, hlexemes]

/-- A quote and a comment that nothing closes: the quote is read leniently, the comment not at all. -/
theorem lexemes_tile_apply :
    Tiles "a\"\n/*" [(⟨.identifier, "a"⟩, ⟨0, 1, 1⟩), (⟨.punct, "\""⟩, ⟨1, 1, 2⟩),
      (⟨.newline, "\n"⟩, ⟨2, 1, 3⟩)] ⟨['/', '*'], ⟨3, 2, 1⟩⟩ := by
  obtain ⟨-, tiles, -⟩ := lexemes_tile "a\"\n/*"
  have word : (ofString "a\"\n/*").next .strict =
      .ok (some (⟨.identifier, "a"⟩, ⟨['"', '\n', '/', '*'], ⟨1, 1, 2⟩⟩)) := by cbv
  have quote : next .lenient ⟨['"', '\n', '/', '*'], ⟨1, 1, 2⟩⟩ =
      .ok (some (⟨.punct, "\""⟩, ⟨['\n', '/', '*'], ⟨2, 1, 3⟩⟩)) := by cbv
  have lineEnd : next .strict ⟨['\n', '/', '*'], ⟨2, 1, 3⟩⟩ =
      .ok (some (⟨.newline, "\n"⟩, ⟨['/', '*'], ⟨3, 2, 1⟩⟩)) := by cbv
  exact (tiles _ _ (.next (by decide) word (.next (by decide) quote
    (.next (by decide) lineEnd (.refl _))))).1

end Lexeme.Cursor

end ShaderPass
