/-
Whole numbers read from decimal digits.

Only the ten ASCII digits count.  A number may have leading zeros and one sign; a number
outside of the sixty-four bit range is no number here.
-/

namespace Workbench

/-- The number that digits spell after the number `n`. -/
def digitsAfter (n : Nat) : List Char → Option Nat
  | [] => some n
  | c :: cs => if c.isDigit then digitsAfter (n * 10 + (c.toNat - '0'.toNat)) cs else none

/-- The number that one or more digits spell. -/
def readNatural : List Char → Option Nat
  | [] => none
  | cs => digitsAfter 0 cs

/-- The number spelled by an optional sign and one or more digits. -/
def readInteger : List Char → Option Int
  | '-' :: cs => (readNatural cs).map fun n => -(n : Int)
  | '+' :: cs => (readNatural cs).map fun n => (n : Int)
  | cs => (readNatural cs).map fun n => (n : Int)

/-- A whole number as a sixty-four bit number, if it is in range. -/
def toInt64? (n : Int) : Option Int64 :=
  if Int64.minValue.toInt ≤ n ∧ n ≤ Int64.maxValue.toInt then some (Int64.ofInt n) else none

/-- The sixty-four bit number that the text spells. -/
def readInt64 (text : List Char) : Option Int64 :=
  (readInteger text).bind toInt64?

end Workbench
