/-
Binary floating-point numbers of 64 bits, by their bits.

The numbers are never computed with: they are compared, and written out exactly.  So a
number is its bits, and a finite one is read as sign, natural significand and power of two.
-/

namespace Workbench

/-- A number by the bits of its interchange format: sign, exponent field, fraction field. -/
structure Binary64 where
  bits : UInt64
deriving DecidableEq, Repr, Inhabited

namespace Binary64

/-- The sign bit is set. -/
def negative (x : Binary64) : Bool :=
  x.bits.toNat / Nat.pow 2 63 == 1

/-- The exponent field, eleven bits. -/
def exponentField (x : Binary64) : Nat :=
  x.bits.toNat / Nat.pow 2 52 % Nat.pow 2 11

/-- The fraction field, fifty-two bits. -/
def fractionField (x : Binary64) : Nat :=
  x.bits.toNat % Nat.pow 2 52

/-- Infinities have the greatest exponent field and no fraction. -/
def isInfinite (x : Binary64) : Bool :=
  x.exponentField == 2047 && x.fractionField == 0

/-- Not a number: the greatest exponent field with a fraction. -/
def isNaN (x : Binary64) : Bool :=
  x.exponentField == 2047 && x.fractionField != 0

/-- Plus or minus zero. -/
def isZero (x : Binary64) : Bool :=
  x.exponentField == 0 && x.fractionField == 0

/-- The significand of a finite number as a natural number; numbers with a zero exponent
field have no hidden bit. -/
def significand (x : Binary64) : Nat :=
  if x.exponentField = 0 then x.fractionField else Nat.pow 2 52 + x.fractionField

/-- A finite number is its significand times two to this power, less `1074`. -/
def scale (x : Binary64) : Nat :=
  x.exponentField - 1

/-- Equality of numbers: a NaN equals nothing, and the two zeros are equal. -/
instance : BEq Binary64 where
  beq x y := !x.isNaN && !y.isNaN && (x.bits == y.bits || (x.isZero && y.isZero))

end Binary64

end Workbench
