import ShaderPass.Number.Digits
import ShaderPass.Number.Binary

/-!
# Number/Literal — the numbers that literals write

A literal is hexadecimal after `0x`, and then a whole number below `2 ^ 63`; or it is decimal, with
an optional fraction and exponent.  Suffixes `u`, and for decimals `f`, do not count.  The words for
infinity and for what is no number are literals as well.
-/

namespace ShaderPass.Number

/-- A text without the characters at its end that satisfy `p`. -/
def dropSuffixes (p : Char → Bool) (text : List Char) : List Char :=
  (text.reverse.dropWhile p).reverse

/-- Whether a character is the suffix for whole numbers without sign. -/
def isUnsignedSuffix (c : Char) : Bool := c == 'u' || c == 'U'

/-- Whether a character is a suffix of decimal literals. -/
def isSuffix (c : Char) : Bool := c == 'f' || c == 'F' || isUnsignedSuffix c

/-- A decimal number: the digits before and after the point, and the exponent. -/
structure Decimal where
  whole : List Char
  fraction : List Char
  exponent : Int
  deriving DecidableEq, Repr

namespace Decimal

/-- The whole number that all digits write together. -/
def significand (d : Decimal) : Nat := (ofDigits 10 (d.whole ++ d.fraction)).getD 0

/-- The power of ten that the significand counts. -/
def scale (d : Decimal) : Int := d.exponent - d.fraction.length

/-- The power of ten that the number is below. -/
def magnitude (d : Decimal) : Int := (Nat.toDigits 10 d.significand).length + d.scale

/-- Numbers from this power of ten on are infinite. -/
def tooLarge : Int := 310

/-- Numbers below this power of ten are zero. -/
def tooSmall : Int := -330

/-- The nearest number of 64 bits. -/
def toDouble (d : Decimal) : Double :=
  if d.significand = 0 ∨ d.magnitude ≤ tooSmall then .ofFraction 0 1
  else if tooLarge < d.magnitude then .infinity
  else .ofFraction (d.significand * Nat.pow 10 d.scale.toNat) (Nat.pow 10 (-d.scale).toNat)

end Decimal

/-- An exponent: digits that a sign may precede. -/
def readExponent : List Char → Option Int
  | '-' :: digits => (ofDigits 10 digits).map fun n => -(n : Int)
  | '+' :: digits => (ofDigits 10 digits).map fun n => (n : Int)
  | digits => (ofDigits 10 digits).map fun n => (n : Int)

/-- The exponent that a text is, where no text means none. -/
def readExponentPart : List Char → Option Int
  | [] => some 0
  | c :: text => if c = 'e' ∨ c = 'E' then readExponent text else none

/-- A decimal number with a digit on at least one side of the point. -/
def readDecimal (text : List Char) : Option Decimal :=
  let whole := text.takeWhile Char.isDigit
  let (fraction, rest) :=
    match text.dropWhile Char.isDigit with
    | '.' :: rest => (rest.takeWhile Char.isDigit, rest.dropWhile Char.isDigit)
    | rest => ([], rest)
  if whole = [] ∧ fraction = [] then none
  else (readExponentPart rest).map fun exponent => ⟨whole, fraction, exponent⟩

/-- The word for infinity, in any case. -/
def infinityWord : List Char := "infinity".toList

/-- The word for what is no number, in any case. -/
def nanWord : List Char := "nan".toList

/-- The number that a decimal literal without suffixes writes. -/
def readDecimalLiteral (text : List Char) : Option Double :=
  let lower := text.map Char.toLower
  if lower = infinityWord then some .infinity
  else if lower = nanWord then some .nan
  else (readDecimal text).map Decimal.toDouble

/-- The first number too large for a hexadecimal literal. -/
def hexBound : Nat := 0x8000000000000000

/-- The number that a hexadecimal literal without its start writes. -/
def readHexLiteral (text : List Char) : Option Double :=
  (ofDigitsBelow hexBound 16 (dropSuffixes isUnsignedSuffix text)).map fun n => .ofFraction n 1

/-- The number that a literal writes. -/
def readLiteral (text : String) : Option Double :=
  match text.toList with
  | '0' :: 'x' :: rest | '0' :: 'X' :: rest => readHexLiteral rest
  | text => readDecimalLiteral (dropSuffixes isSuffix text)

end ShaderPass.Number
