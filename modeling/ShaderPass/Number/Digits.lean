/-!
# Number/Digits — natural numbers from their digits

A **numeral** in some base is a sequence of at least one digit, letters counting on from ten in
either case.  `ofDigits` reads it, and refuses a sequence with any other character in it.
-/

namespace ShaderPass.Number

/-- The value of a character as a digit of a base up to sixteen. -/
def digitValue (base : Nat) (c : Char) : Option Nat :=
  let value :=
    if c.isDigit then c.toNat - '0'.toNat
    else if 'a' ≤ c ∧ c ≤ 'f' then c.toNat - 'a'.toNat + 10
    else if 'A' ≤ c ∧ c ≤ 'F' then c.toNat - 'A'.toNat + 10
    else base
  if value < base then some value else none

/-- Whether a character is a hexadecimal digit. -/
def isHexDigit (c : Char) : Bool := (digitValue 16 c).isSome

/-- The number that goes on from `value` with some more digits. -/
def appendDigits (base : Nat) : Nat → List Char → Option Nat
  | value, [] => some value
  | value, c :: cs =>
    match digitValue base c with
    | some d => appendDigits base (base * value + d) cs
    | none => none

/-- The number that some digits write. -/
def ofDigits (base : Nat) (digits : List Char) : Option Nat :=
  if digits = [] then none else appendDigits base 0 digits

/-- The number that some digits write, if it is below `bound`. -/
def ofDigitsBelow (bound base : Nat) (digits : List Char) : Option Nat :=
  (ofDigits base digits).filter (· < bound)

end ShaderPass.Number
