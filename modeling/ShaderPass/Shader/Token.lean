import ShaderPass.Text.Blank
import ShaderPass.Lexeme.Cursor
import ShaderPass.Source.Span
import ShaderPass.Keyword

/-!
# Shader/Token — the tokens of a preprocessed shader

A **token** is a lexeme that is not trivia, with its words told apart and with the stretch of text
it stands in.  A `#` at the start of a line makes one token of the whole line up to its last
character that is not blank, whatever lexemes the line would have.
-/

namespace ShaderPass.Shader

open Lexeme (Cursor)
open Source (Span)

/-- The kinds of tokens. -/
inductive TokenKind
  | word (c : WordClass)
  | identifier
  | number
  | string
  | punct (c : Char)
  | directive
  deriving DecidableEq, Repr

/-- A token. -/
structure Token where
  kind : TokenKind
  text : String
  span : Span
  deriving DecidableEq, Repr

namespace Token

/-- Whether this is the punctuation character `c`. -/
def isPunct (t : Token) (c : Char) : Bool := t.kind == .punct c

/-- The structural keyword that a token is. -/
def keyword? (t : Token) : Option Keyword :=
  match t.kind with
  | .word (.structural k) => some k
  | _ => none

/-- Whether a token is an identifier or has a class of words. -/
def isWord (t : Token) : Bool :=
  match t.kind with
  | .identifier | .word _ => true
  | _ => false

/-- The text of a string token without its quotes. -/
def unquoted (t : Token) : String := String.ofList t.text.toList.tail.dropLast

end Token

/-- The kind of the token that a lexeme makes, unless it is trivia or a line end. -/
def TokenKind.ofLexeme? (l : Lexeme) : Option TokenKind :=
  match l.kind with
  | .newline | .whitespace | .lineComment | .blockComment => none
  | .identifier =>
    match WordClass.classify l.text with
    | some c => some (.word c)
    | none => some .identifier
  | .number => some .number
  | .stringLiteral | .charLiteral => some .string
  | .punct => some (.punct (l.text.toList.headD ' '))

/-- The line at a cursor, without the blanks at its end. -/
def lineAt (c : Cursor) : String := Text.trimEnd (String.ofList (c.rest.takeWhile (· != '\n')))

/-- Reads lexemes until a byte offset is reached or none can be read. -/
def skipTo (offset : Nat) (c : Cursor) : { c' : Cursor // c'.rest.length ≤ c.rest.length } :=
  if c.location.offset < offset then
    match h : c.next .strict with
    | .ok (some (_, c')) =>
      have hc := Cursor.next_rest_lt h
      let ⟨stop, hs⟩ := skipTo offset c'
      ⟨stop, Nat.le_trans hs (Nat.le_of_lt hc)⟩
    | _ => ⟨c, Nat.le_refl _⟩
  else ⟨c, Nat.le_refl _⟩
termination_by c.rest.length

/-- The tokens from a cursor on.  A fault comes with its location. -/
def tokensFrom (atLineStart : Bool) (c : Cursor) : Except (Lexeme.Fault × Location) (List Token) :=
  match _h : c.next .strict with
  | .error fault => .error (fault, c.location)
  | .ok none => .ok []
  | .ok (some (l, c')) =>
    let start := c.location.offset
    if atLineStart ∧ l.isPunct '#' then
      let line := lineAt c
      let stop := start + line.utf8ByteSize
      let ⟨after, _hs⟩ := skipTo stop c'
      (tokensFrom true after).map (⟨.directive, line, ⟨start, stop⟩⟩ :: ·)
    else
      match TokenKind.ofLexeme? l with
      | none => tokensFrom (atLineStart || l.kind == .newline) c'
      | some kind =>
        (tokensFrom false c').map (⟨kind, l.text, ⟨start, start + l.text.utf8ByteSize⟩⟩ :: ·)
termination_by c.rest.length
decreasing_by
  · exact Nat.lt_of_le_of_lt _hs (Cursor.next_rest_lt _h)
  · exact Cursor.next_rest_lt _h
  · exact Cursor.next_rest_lt _h

/-- The tokens of a text. -/
def tokenize (text : String) : Except (Lexeme.Fault × Location) (List Token) :=
  tokensFrom true (.ofString text)

end ShaderPass.Shader
