import ShaderPass.Text.Location
import ShaderPass.Lexeme.Form

/-!
# Lexeme/Cursor — reading a text lexeme by lexeme

A **cursor** is the text that is left together with the location it starts at.  `next` reads one
lexeme in one of two modes, which differ in what a quote means that no later quote closes: a fault
in `strict` mode, a punctuation character in `lenient` mode.  A block comment that is never closed
is a fault in both.  A lexeme read shortens the text that is left (`next_rest_lt`), so that
everything that reads to the end of a text terminates.
-/

namespace ShaderPass.Lexeme

/-- What becomes of a quote that nothing closes. -/
inductive Mode
  | strict
  | lenient
  deriving DecidableEq, Repr

/-- The text that is left to read, and the location at which it starts. -/
structure Cursor where
  rest : List Char
  location : Location
  deriving DecidableEq, Repr

/-- What a punctuation character at the front of a text reveals to be wrong with it. -/
def fault? (mode : Mode) : List Char → Option Fault
  | '/' :: '*' :: _ => some .unterminatedBlockComment
  | '"' :: _ => if mode = .strict then some .unterminatedString else none
  | '\'' :: _ => if mode = .strict then some .unterminatedCharacter else none
  | _ => none

namespace Cursor

/-- The cursor at the start of a text. -/
def ofString (text : String) : Cursor := ⟨text.toList, .origin⟩

/-- Whether nothing is left to read. -/
def atEnd (c : Cursor) : Bool := c.rest.isEmpty

/-- The cursor after the first `n` characters. -/
def skip (c : Cursor) (n : Nat) : Cursor :=
  ⟨c.rest.drop n, c.location.advanceAll (c.rest.take n)⟩

/-- Reads one lexeme: `none` at the end of the text, else the lexeme and the cursor after it.
The lexeme starts at the location of the cursor read from; on a fault that is its location too. -/
def next (mode : Mode) (c : Cursor) : Except Fault (Option (Lexeme × Cursor)) :=
  if c.rest = [] then .ok none
  else
    let (kind, n) := Form.form c.rest
    match if kind = .punct then fault? mode c.rest else none with
    | some fault => .error fault
    | none => .ok (some (⟨kind, String.ofList (c.rest.take n)⟩, c.skip n))

/-- A lexeme read leaves less text. -/
theorem next_rest_lt {mode : Mode} {c c' : Cursor} {l : Lexeme}
    (h : c.next mode = .ok (some (l, c'))) : c'.rest.length < c.rest.length := by
  rw [next] at h
  split at h
  next => simp at h
  next hne =>
    simp only at h
    split at h
    next => simp at h
    next =>
      simp only [Except.ok.injEq, Option.some.injEq, Prod.mk.injEq] at h
      obtain ⟨_, rfl⟩ := h
      have := Form.form_pos c.rest
      have := List.length_pos_iff.2 hne
      simp only [skip, List.length_drop]; omega

/-- The next lexeme that is not trivia, and the cursor at it.  A fault comes with its location. -/
def significant (mode : Mode) (c : Cursor) :
    Except (Fault × Location) (Option (Lexeme × Cursor)) :=
  match _h : c.next mode with
  | .error fault => .error (fault, c.location)
  | .ok none => .ok none
  | .ok (some (l, c')) => if l.isTrivia then c'.significant mode else .ok (some (l, c))
termination_by c.rest.length
decreasing_by exact next_rest_lt _h

/-- All lexemes up to the end of the text or up to a fault, each with its location; the cursor is
the one at which the reading stopped. -/
def lexemes (mode : Mode) (c : Cursor) : List (Lexeme × Location) × Cursor × Option Fault :=
  match _h : c.next mode with
  | .error fault => ([], c, some fault)
  | .ok none => ([], c, none)
  | .ok (some (l, c')) =>
    let (ls, stop, fault) := c'.lexemes mode
    ((l, c.location) :: ls, stop, fault)
termination_by c.rest.length
decreasing_by exact next_rest_lt _h

end Cursor

/-- The lexemes of a text, read strictly; on a fault, the location at which reading stopped. -/
def ofText (text : String) : Except (Fault × Location) (List Lexeme) :=
  match (Cursor.ofString text).lexemes .strict with
  | (ls, _, none) => .ok (ls.map (·.1))
  | (_, stop, some fault) => .error (fault, stop.location)

end ShaderPass.Lexeme
