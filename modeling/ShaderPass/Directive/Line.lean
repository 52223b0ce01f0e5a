import ShaderPass.Text.Blank
import ShaderPass.Lexeme.Cursor

/-!
# Directive/Line — reading a directive line

A directive reaches to the end of its line, and further where a backslash stands before the line
end.  `readLine` gives the text of the directive, in which a comment counts as a space and so does a
continued line end, and the line ends it went over, which are needed to keep the lines of the output
in step with those of the source.  Quotes are read leniently.
-/

namespace ShaderPass.Directive

open Lexeme

/-- A directive line: its text from the `#` on, and the offsets of the line ends in and after it. -/
structure Line where
  text : String
  lineEnds : List Nat
  deriving DecidableEq, Repr

/-- What a lexeme contributes to the text of a directive. -/
def contribution (l : Lexeme) : String :=
  if l.kind = .lineComment ∨ l.kind = .blockComment then " " else l.text

/-- The cursor after the line end that the cursor is at, if it is at one. -/
def afterLineEnd? (c : Cursor) : Option Cursor :=
  match c.next .strict with
  | .ok (some (l, c')) => if l.kind = .newline then some c' else none
  | _ => none

/-- The cursor on the next line, if the lexeme before the cursor goes on with the directive there. -/
def continuation? (l : Lexeme) (c : Cursor) : Option Cursor :=
  if l.isPunct '\\' then afterLineEnd? c else none

theorem continuation?_rest_lt {l : Lexeme} {c c' : Cursor} (h : continuation? l c = some c') :
    c'.rest.length < c.rest.length := by
  rw [continuation?] at h
  split at h
  next =>
    rw [afterLineEnd?] at h
    split at h
    next hn =>
      split at h
      next => exact Option.some.inj h ▸ Cursor.next_rest_lt hn
      next => cases h
    next => cases h
  next => cases h

/-- The rest of a directive line, not trimmed: its text, the offsets of its line ends, and the
cursor after it.  A fault comes with its location. -/
def readRest (c : Cursor) : Except (Fault × Location) (String × List Nat × Cursor) :=
  match _h : c.next .lenient with
  | .error fault => .error (fault, c.location)
  | .ok none => .ok ("", [], c)
  | .ok (some (l, c')) =>
    if l.kind = .newline then .ok ("", [c.location.offset], c')
    else
      match _hc : continuation? l c' with
      | some c'' =>
        (readRest c'').map fun (text, ends, after) => (" " ++ text, c'.location.offset :: ends, after)
      | none => (readRest c').map fun (text, ends, after) => (contribution l ++ text, ends, after)
termination_by c.rest.length
decreasing_by
  · exact Nat.lt_trans (continuation?_rest_lt _hc) (Cursor.next_rest_lt _h)
  · exact Cursor.next_rest_lt _h

/-- The rest of a directive line does not come before the cursor. -/
theorem readRest_rest_le {c after : Cursor} {text : String} {ends : List Nat}
    (h : readRest c = .ok (text, ends, after)) : after.rest.length ≤ c.rest.length := by
  rw [readRest] at h
  split at h
  next => cases h
  next =>
    cases h
    exact Nat.le_refl _
  next l c' hn =>
    have hl := Cursor.next_rest_lt hn
    split at h
    next =>
      cases h
      exact Nat.le_of_lt hl
    next =>
      split at h
      next c'' hc =>
        have hc' := Nat.lt_trans (continuation?_rest_lt hc) hl
        cases hr : readRest c'' with
        | error fault => rw [hr] at h; cases h
        | ok r =>
          rw [hr] at h
          cases h
          exact Nat.le_trans (readRest_rest_le hr) (Nat.le_of_lt hc')
      next =>
        cases hr : readRest c' with
        | error fault => rw [hr] at h; cases h
        | ok r =>
          rw [hr] at h
          cases h
          exact Nat.le_trans (readRest_rest_le hr) (Nat.le_of_lt hl)
termination_by c.rest.length

/-- The directive line after its `#`, and the cursor after the line. -/
def readLine (c : Cursor) : Except (Fault × Location) (Line × Cursor) :=
  (readRest c).map fun (text, ends, after) => (⟨"#" ++ Text.trim text, ends⟩, after)

/-- The cursor after a directive line does not come before the one after its `#`. -/
theorem readLine_rest_le {c after : Cursor} {line : Line} (h : readLine c = .ok (line, after)) :
    after.rest.length ≤ c.rest.length := by
  rw [readLine] at h
  cases hr : readRest c with
  | error fault => rw [hr] at h; cases h
  | ok r =>
    rw [hr] at h
    cases h
    exact readRest_rest_le hr

end ShaderPass.Directive
