/-!
# Lexeme/Basic — the lexical pieces of shader source

A **lexeme** is a piece of text with the kind it was recognised as.  The kinds are purely lexical:
keywords are identifiers here, and white space, comments and line ends are lexemes like any other,
so that the pieces of a text put together are the text.
-/

namespace ShaderPass

/-- The lexical kinds. -/
inductive Kind
  | newline
  | whitespace
  | lineComment
  | blockComment
  | identifier
  | number
  | stringLiteral
  | charLiteral
  | punct
  deriving DecidableEq, Repr, Inhabited

/-- White space and comments are **trivia**; the end of a line is not. -/
def Kind.isTrivia : Kind → Bool
  | .whitespace | .lineComment | .blockComment => true
  | _ => false

/-- A piece of text and the kind it was recognised as. -/
structure Lexeme where
  kind : Kind
  text : String
  deriving DecidableEq, Repr, Inhabited

namespace Lexeme

/-- Whether this is white space or a comment. -/
def isTrivia (l : Lexeme) : Bool := l.kind.isTrivia

/-- Whether this is the punctuation character `c`. -/
def isPunct (l : Lexeme) (c : Char) : Bool := l.kind == .punct && l.text == String.singleton c

/-- What can be wrong with the text at which no lexeme can be read. -/
inductive Fault
  | unterminatedBlockComment
  | unterminatedString
  | unterminatedCharacter
  deriving DecidableEq, Repr

/-- The wording of a fault. -/
def Fault.message : Fault → String
  | .unterminatedBlockComment => "unterminated block comment"
  | .unterminatedString => "unterminated string literal"
  | .unterminatedCharacter => "unterminated character literal"

end Lexeme

end ShaderPass
