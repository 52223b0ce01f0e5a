/-!
# Number/Binary — binary floating-point numbers as bits

A binary **format** has a precision, a smallest unit `2 ^ -unit` and an infinity.  The bits of its
numbers that are not negative count those numbers in ascending order, from zero in steps of one
unit and then of `2 ^ k` units, so that rounding a fraction to bits is integer arithmetic: `round`
takes the nearest number and, of two equally near, the one whose last bit is zero.  A carry out of
the significand moves on to the next power of two by itself.
-/

namespace ShaderPass.Number

/-- A binary format: the bits of a significand, the smallest power of two, and the infinity. -/
structure Format where
  precision : Nat
  unit : Nat
  infinity : Nat
  deriving DecidableEq, Repr

namespace Format

/-- Numbers of 64 bits. -/
def double : Format := ⟨53, 1074, 0x7ff0000000000000⟩

/-- Numbers of 32 bits. -/
def single : Format := ⟨24, 149, 0x7f800000⟩

/-- The whole number nearest to a fraction, the even one of two that are equally near. -/
def nearest (num den : Nat) : Nat :=
  let q := num / den
  let r := num % den
  if den < 2 * r ∨ (den = 2 * r ∧ q % 2 = 1) then q + 1 else q

/-- The bits of the number nearest to a fraction. -/
def round (f : Format) (num den : Nat) : Nat :=
  let scaled := num <<< f.unit
  let shift := Nat.log2 (scaled / den) + 1 - f.precision
  min f.infinity (nearest scaled (den <<< shift) + shift <<< (f.precision - 1))

/-- The number of units in the finite number of some bits. -/
def units (f : Format) (bits : Nat) : Nat :=
  let step := 1 <<< (f.precision - 1)
  if bits < step then bits else (step + bits % step) <<< (bits / step - 1)

end Format

/-- A number of 64 bits. -/
structure Double where
  bits : UInt64
  deriving DecidableEq, Repr, Inhabited

/-- A number of 32 bits. -/
structure Single where
  bits : UInt32
  deriving DecidableEq, Repr, Inhabited

namespace Double

/-- The bit of the sign. -/
def signBit : UInt64 := 0x8000000000000000

/-- The number nearest to a fraction. -/
def ofFraction (num den : Nat) : Double := ⟨UInt64.ofNat (Format.double.round num den)⟩

/-- Infinity. -/
def infinity : Double := ⟨UInt64.ofNat Format.double.infinity⟩

/-- A value that is no number. -/
def nan : Double := ⟨0x7ff8000000000000⟩

/-- The number of the other sign. -/
def negate (x : Double) : Double := ⟨x.bits ^^^ signBit⟩

/-- The bits without the sign. -/
def magnitude (x : Double) : Nat := (x.bits &&& 0x7fffffffffffffff).toNat

/-- Whether the sign is minus. -/
def isNegative (x : Double) : Bool := x.bits &&& signBit != 0

/-- Whether this is no number. -/
def isNaN (x : Double) : Bool := decide (Format.double.infinity < x.magnitude)

end Double

namespace Single

/-- One. -/
def one : Single := ⟨0x3f800000⟩

/-- A value that is no number. -/
def nan : Single := ⟨0x7fc00000⟩

/-- Whether this is no number. -/
def isNaN (x : Single) : Bool :=
  decide (Format.single.infinity < (x.bits &&& 0x7fffffff).toNat)

end Single

/-- The number of 32 bits nearest to one of 64 bits. -/
def Double.toSingle (x : Double) : Single :=
  if x.isNaN then .nan
  else
    let magnitude :=
      if x.magnitude = Format.double.infinity then Format.single.infinity
      else Format.single.round (Format.double.units x.magnitude) (1 <<< Format.double.unit)
    ⟨UInt32.ofNat magnitude ||| if x.isNegative then 0x80000000 else 0⟩

end ShaderPass.Number
