import ShaderPass.Text.Blank
import ShaderPass.Lexeme.Form
import ShaderPass.Directive.Basic

/-!
# Directive/Parse — the directive that a line writes

The word right after the `#` says which directive a line is, and the readers below take what has to
follow it.  Parts are separated by spaces and tabs alone.  A directive whose last part is free text
takes it up to the end of the line; what stands after that is given back and means nothing.
-/

namespace ShaderPass.Directive

open Lexeme

/-- A reader takes something off the front of a text, or refuses it. -/
abbrev Reader (α : Type) := List Char → Option (α × List Char)

/-- The blanks between the parts of a directive. -/
def isGap (c : Char) : Bool := c == ' ' || c == '\t'

/-- A text without the blanks it starts with. -/
def skipGap (text : List Char) : List Char := text.dropWhile isGap

/-- What follows the blanks that a text starts with, if it starts with one. -/
def afterGap? : List Char → Option (List Char)
  | c :: text => if isGap c then some (skipGap text) else none
  | [] => none

/-- What follows the blanks that a text starts with, if it starts with one or is at its end. -/
def afterGapOrEnd? : List Char → Option (List Char)
  | [] => some []
  | text => afterGap? text

/-- Accepts a text of blanks alone. -/
def atEnd? (text : List Char) : Option Unit := if skipGap text = [] then some () else none

/-- A name. -/
def name? : Reader String := fun text =>
  match Form.identifier text with
  | 0 => none
  | n => some (String.ofList (text.take n), text.drop n)

/-- Whether a character belongs to the line it is on. -/
def isOnLine (c : Char) : Bool := c != '\n' && c != '\r'

/-- The text up to the end of the line, without blanks at either end. -/
def freeText (text : List Char) : String × List Char :=
  (Text.trim (String.ofList (text.takeWhile isOnLine)), text.dropWhile isOnLine)

/-- The parameters after the first, and the closing parenthesis. -/
def moreParams? (text : List Char) : Option (List String × List Char) :=
  match _h : skipGap text with
  | ')' :: rest => some ([], rest)
  | ',' :: rest =>
    match _hn : name? (skipGap rest) with
    | none => none
    | some (p, rest') =>
      (moreParams? rest').map fun (ps, rest) => (p :: ps, rest)
  | _ => none
termination_by text.length
decreasing_by
  have h₁ : rest'.length ≤ (skipGap rest).length := by
    rw [name?] at _hn
    split at _hn
    next => simp at _hn
    next =>
      obtain ⟨_, rfl⟩ := Prod.mk.inj (Option.some.inj _hn)
      rw [List.length_drop]
      exact Nat.sub_le _ _
  have h₂ : (skipGap rest).length ≤ rest.length := (List.dropWhile_sublist isGap).length_le
  have h₃ : (skipGap text).length ≤ text.length := (List.dropWhile_sublist isGap).length_le
  rw [_h, List.length_cons] at h₃
  omega

/-- The parameters after the opening parenthesis. -/
def params? (text : List Char) : Option (List String × List Char) :=
  match skipGap text with
  | ')' :: rest => some ([], rest)
  | text => do
    let (p, rest) ← name? text
    let (ps, rest) ← moreParams? rest
    return (p :: ps, rest)

/-- A definition: the name, the parameters if a parenthesis follows it at once, and the body. -/
def define? : Reader Directive := fun text => do
  let (name, rest) ← name? (← afterGap? text)
  match rest with
  | '(' :: rest =>
    let (params, rest) ← params? rest
    let (body, rest) := freeText (skipGap rest)
    return (.define name (some params) body, rest)
  | rest =>
    let (body, rest) := freeText (← afterGapOrEnd? rest)
    return (.define name none body, rest)

/-- A name and nothing else. -/
def nameOnly? (text : List Char) : Option String := do
  let (name, rest) ← name? (← afterGap? text)
  atEnd? rest
  return name

/-- A condition, which a parenthesis or an exclamation mark can start without a blank. -/
def condition? : Reader String := fun text =>
  match text with
  | '(' :: _ | '!' :: _ => some (freeText text)
  | _ => (afterGap? text).map freeText

/-- A path up to its closing delimiter, and what follows that. -/
def pathTo? (delimiter : Char) : Reader String := fun text =>
  match text.dropWhile (· != delimiter) with
  | _ :: rest => some (String.ofList (text.takeWhile (· != delimiter)), rest)
  | [] => none

/-- A path between quotes or angle brackets, and nothing else. -/
def splice? (text : List Char) : Option Directive := do
  let (path, rest) ←
    match skipGap text with
    | '"' :: rest => pathTo? '"' rest
    | '<' :: rest => pathTo? '>' rest
    | _ => none
  atEnd? rest
  return .splice path

/-- The word `once` and nothing else. -/
def once? (text : List Char) : Option Directive := do
  match ← afterGap? text with
  | 'o' :: 'n' :: 'c' :: 'e' :: rest =>
    atEnd? rest
    return .once
  | _ => none

/-- A line that is kept as it is, up to its end. -/
def passThrough? (word : String) : Reader Directive := fun text =>
  if text = [] ∨ (afterGap? text).isSome then
    let line := "#" ++ word ++ String.ofList (text.takeWhile isOnLine)
    some (.passThrough (Text.trimEnd line), text.dropWhile isOnLine)
  else none

/-- The directive that a word and the text after it write. -/
def ofWord? (word : String) : Reader Directive := fun text =>
  match word with
  | "define" => define? text
  | "undef" => (nameOnly? text).map fun name => (.undefine name, [])
  | "ifdef" => (nameOnly? text).map fun name => (.openGroup (.defined name), [])
  | "ifndef" => (nameOnly? text).map fun name => (.openGroup (.undefined name), [])
  | "if" => (condition? text).map fun (c, rest) => (.openGroup (.condition c), rest)
  | "elif" => (condition? text).map fun (c, rest) => (.elseIf c, rest)
  | "else" => (atEnd? text).map fun _ => (.otherwise, [])
  | "endif" => (atEnd? text).map fun _ => (.endGroup, [])
  | "include" => (splice? text).map (·, [])
  | "error" => (afterGapOrEnd? text).map fun text =>
    let (message, rest) := freeText text
    (.stop message, rest)
  | "pragma" => ((once? text).map (·, [])).or (passThrough? word text)
  | "version" | "extension" | "line" => passThrough? word text
  | _ => none

/-- The directive that a line writes, and what is left of the line. -/
def parse? (line : String) : Option (Directive × List Char) :=
  match line.toList with
  | '#' :: text =>
    if skipGap text = [] then some (.nothing, [])
    else do
      let (word, rest) ← name? text
      ofWord? word rest
  | _ => none

/-- The word that a line is known by, also where the line is no directive: the first name after the
`#`s and blanks it starts with. -/
def wordOf (line : String) : String :=
  let text := ((line.toList.dropWhile (· == '#')).dropWhile Text.isBlank)
  String.ofList (text.take (Form.identifier text))

end ShaderPass.Directive
