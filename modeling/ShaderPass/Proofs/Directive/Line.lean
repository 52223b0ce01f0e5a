import ShaderPass.Directive.Line
import ShaderPass.Proofs.Outcome

/-!
# Proofs/Directive/Line — what reading a directive line goes through

    #define A \⏎ b // c ⏎      lexeme · lexeme · ⋯ · continued · lexeme · ⋯ · lineEnd

Reading the rest of a directive line goes on lexeme by lexeme, over each line end that is continued,
until it comes to a line end that is not, or to the end of the text (`readsRest_iff`); or it stops at a
fault on the way (`failsRest_of_readRest`).  What is to be shown of directive lines follows these
cases.
-/

namespace ShaderPass.Directive

open Lexeme

variable {c c' c'' after : Cursor} {l : Lexeme} {text : String} {ends : List Nat} {fault : Fault}
  {location : Location} {line : Line}

/-! ## The cases of one reading -/

theorem readRest_fault (next : c.next .lenient = .error fault) :
    readRest c = .error (fault, c.location) := by
  rw [readRest]
  split
  next heq => cases next.symm.trans heq; rfl
  next heq => cases next.symm.trans heq
  next heq => cases next.symm.trans heq

theorem readRest_atEnd (next : c.next .lenient = .ok none) : readRest c = .ok ("", [], c) := by
  rw [readRest]
  split
  next heq => cases next.symm.trans heq
  next => rfl
  next heq => cases next.symm.trans heq

/-- A line ends with its line end, which is taken. -/
theorem readRest_lineEnd (next : c.next .lenient = .ok (some (l, c'))) (newline : l.kind = .newline) :
    readRest c = .ok ("", [c.location.offset], c') := by
  rw [readRest]
  split
  next heq => cases next.symm.trans heq
  next heq => cases next.symm.trans heq
  next heq =>
    cases next.symm.trans heq
    exact if_pos newline

/-- A line goes on behind a continuation, which is a space in it. -/
theorem readRest_continued (next : c.next .lenient = .ok (some (l, c')))
    (noNewline : l.kind ≠ .newline) (continues : continuation? l c' = some c'') :
    readRest c = (readRest c'').map fun (text, ends, after) =>
      (" " ++ text, c'.location.offset :: ends, after) := by
  rw [readRest]
  split
  next heq => cases next.symm.trans heq
  next heq => cases next.symm.trans heq
  next heq =>
    cases next.symm.trans heq
    rw [if_neg noNewline]
    split
    next heq => cases continues.symm.trans heq; rfl
    next heq => cases continues.symm.trans heq

theorem readRest_lexeme (next : c.next .lenient = .ok (some (l, c')))
    (noNewline : l.kind ≠ .newline) (stops : continuation? l c' = none) :
    readRest c = (readRest c').map fun (text, ends, after) =>
      (contribution l ++ text, ends, after) := by
  rw [readRest]
  split
  next heq => cases next.symm.trans heq
  next heq => cases next.symm.trans heq
  next heq =>
    cases next.symm.trans heq
    rw [if_neg noNewline]
    split
    next heq => cases stops.symm.trans heq
    next => rfl

/-! ## Readings that succeed -/

/-- What reading the rest of a directive line goes through: the text that it gives, the line ends, and
the cursor after it. -/
inductive ReadsRest : Cursor → String → List Nat → Cursor → Prop
  | atEnd {c : Cursor} (next : c.next .lenient = .ok none) : ReadsRest c "" [] c
  | lineEnd {c c' : Cursor} {l : Lexeme} (next : c.next .lenient = .ok (some (l, c')))
      (newline : l.kind = .newline) : ReadsRest c "" [c.location.offset] c'
  | continued {c c' c'' after : Cursor} {l : Lexeme} {text : String} {ends : List Nat}
      (next : c.next .lenient = .ok (some (l, c'))) (noNewline : l.kind ≠ .newline)
      (continues : continuation? l c' = some c'') (rest : ReadsRest c'' text ends after) :
      ReadsRest c (" " ++ text) (c'.location.offset :: ends) after
  | lexeme {c c' after : Cursor} {l : Lexeme} {text : String} {ends : List Nat}
      (next : c.next .lenient = .ok (some (l, c'))) (noNewline : l.kind ≠ .newline)
      (stops : continuation? l c' = none) (rest : ReadsRest c' text ends after) :
      ReadsRest c (contribution l ++ text) ends after

/-- What a line reads as is what is read. -/
theorem readRest_of_readsRest (h : ReadsRest c text ends after) :
    readRest c = .ok (text, ends, after) := by
  induction h with
  | atEnd next => exact readRest_atEnd next
  | lineEnd next newline => exact readRest_lineEnd next newline
  | continued next noNewline continues _ ih =>
    rw [readRest_continued next noNewline continues, ih]
    rfl
  | lexeme next noNewline stops _ ih =>
    rw [readRest_lexeme next noNewline stops, ih]
    rfl

/-- **A reading of a directive line succeeds by going through these cases.** -/
theorem readsRest_iff : readRest c = .ok (text, ends, after) ↔ ReadsRest c text ends after := by
  refine ⟨fun h => ?_, readRest_of_readsRest⟩
  induction c using readRest.induct generalizing text ends after with
  | case1 c fault next => cases (readRest_fault next).symm.trans h
  | case2 c next =>
    cases (readRest_atEnd next).symm.trans h
    exact .atEnd next
  | case3 c l c' next newline =>
    cases (readRest_lineEnd next newline).symm.trans h
    exact .lineEnd next newline
  | case4 c l c' next noNewline c'' continues ih =>
    obtain ⟨r, hr, heq⟩ := map_eq_ok.1 ((readRest_continued next noNewline continues).symm.trans h)
    cases heq
    exact .continued next noNewline continues (ih hr)
  | case5 c l c' next noNewline stops ih =>
    obtain ⟨r, hr, heq⟩ := map_eq_ok.1 ((readRest_lexeme next noNewline stops).symm.trans h)
    cases heq
    exact .lexeme next noNewline stops (ih hr)

/-- A directive line is what reading its rest gives, with the `#` before it. -/
theorem readLine_eq_ok (h : readLine c = .ok (line, after)) :
    ∃ text, ReadsRest c text line.lineEnds after ∧ line.text = "#" ++ Text.trim text := by
  obtain ⟨⟨text, ends, stop⟩, hr, heq⟩ := map_eq_ok.1 h
  cases heq
  exact ⟨text, readsRest_iff.1 hr, rfl⟩

/-! ## Readings that fail -/

/-- How reading the rest of a directive line fails: at a fault, here or further on. -/
inductive FailsRest : Cursor → Fault → Location → Prop
  | fault {c : Cursor} {fault : Fault} (next : c.next .lenient = .error fault) :
      FailsRest c fault c.location
  | continued {c c' c'' : Cursor} {l : Lexeme} {fault : Fault} {location : Location}
      (next : c.next .lenient = .ok (some (l, c'))) (noNewline : l.kind ≠ .newline)
      (continues : continuation? l c' = some c'') (rest : FailsRest c'' fault location) :
      FailsRest c fault location
  | lexeme {c c' : Cursor} {l : Lexeme} {fault : Fault} {location : Location}
      (next : c.next .lenient = .ok (some (l, c'))) (noNewline : l.kind ≠ .newline)
      (stops : continuation? l c' = none) (rest : FailsRest c' fault location) :
      FailsRest c fault location

theorem failsRest_of_readRest (h : readRest c = .error (fault, location)) :
    FailsRest c fault location := by
  induction c using readRest.induct with
  | case1 c fault next =>
    cases (readRest_fault next).symm.trans h
    exact .fault next
  | case2 c next => cases (readRest_atEnd next).symm.trans h
  | case3 c l c' next newline => cases (readRest_lineEnd next newline).symm.trans h
  | case4 c l c' next noNewline c'' continues ih =>
    rw [readRest_continued next noNewline continues] at h
    exact .continued next noNewline continues (ih (map_eq_error.1 h))
  | case5 c l c' next noNewline stops ih =>
    rw [readRest_lexeme next noNewline stops] at h
    exact .lexeme next noNewline stops (ih (map_eq_error.1 h))

/-- **A directive line that cannot be read has a fault in it.** -/
theorem failsRest_of_readLine (h : readLine c = .error (fault, location)) :
    FailsRest c fault location := failsRest_of_readRest (map_eq_error.1 h)

end ShaderPass.Directive
