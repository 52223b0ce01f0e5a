/-!
# Text/Blank — blank characters, and text without them at its ends

A character is **blank** when it has the Unicode property `White_Space`: twenty-five characters, of
which core's `Char.isWhitespace` knows four.  The three trims drop the blank characters at one end
of a text or at both, and nothing inside it.
-/

namespace ShaderPass.Text

/-- The characters with the Unicode property `White_Space`. -/
def blanks : List Char :=
  ['\t', '\n', '\x0b', '\x0c', '\r', ' ', '\u0085', '\u00a0', '\u1680', '\u2000', '\u2001',
    '\u2002', '\u2003', '\u2004', '\u2005', '\u2006', '\u2007', '\u2008', '\u2009', '\u200a',
    '\u2028', '\u2029', '\u202f', '\u205f', '\u3000']

/-- Whether a character is blank. -/
def isBlank (c : Char) : Bool := blanks.contains c

/-- A text without the blank characters it starts with. -/
def trimStart (s : String) : String := String.ofList (s.toList.dropWhile isBlank)

/-- A text without the blank characters it ends with. -/
def trimEnd (s : String) : String := String.ofList (s.toList.reverse.dropWhile isBlank).reverse

/-- A text without the blank characters at either end. -/
def trim (s : String) : String := trimEnd (trimStart s)

end ShaderPass.Text
