/-
Numbers written with a fixed number of decimal places.

The absolute value of a finite number is an exact fraction.  It is rounded once, to a whole
multiple of the last place, and the result is written with the decimal point put in.  A
fraction halfway between two multiples goes to the even one.  The sign is written whenever
the sign bit is set, so also before a zero.
-/
import Workbench.Decimal.Binary64

namespace Workbench

/-- The whole number nearest to `num / den`; a half goes to the even neighbour. -/
def roundHalfEven (num den : Nat) : Nat :=
  let low := num / den
  let rest := num % den
  if 2 * rest < den then low
  else if den < 2 * rest then low + 1
  else if low % 2 = 0 then low else low + 1

namespace Binary64

/-- How many times the last of `places` decimal places fits into the absolute value of a
finite number, rounded. -/
def scaled (x : Binary64) (places : Nat) : Nat :=
  roundHalfEven (x.significand * Nat.pow 2 x.scale * Nat.pow 10 places) (Nat.pow 2 1074)

end Binary64

/-- The decimal digits of a number. -/
def digits (n : Nat) : List Char :=
  Nat.toDigits 10 n

/-- The last `places` digits of `n`, with leading zeros. -/
def paddedDigits (places n : Nat) : List Char :=
  let shown := digits n
  List.replicate (places - shown.length) '0' ++ shown

/-- `n` units of the last of `places` decimal places, with a point before the places. -/
def fixedPoint (places n : Nat) : List Char :=
  if places = 0 then digits n
  else digits (n / Nat.pow 10 places) ++ '.' :: paddedDigits places (n % Nat.pow 10 places)

/-- The text of a number with exactly `places` decimal places. -/
def Binary64.toFixed (x : Binary64) (places : Nat) : String :=
  if x.isNaN then "NaN"
  else
    let sign := if x.negative then ['-'] else []
    let size := if x.isInfinite then ['i', 'n', 'f'] else fixedPoint places (x.scaled places)
    String.ofList (sign ++ size)

/-- The text of a number that may be absent; nothing is written for an absent one. -/
def formatNumber (number : Option Binary64) (places : Nat) : String :=
  match number with
  | none => ""
  | some x => x.toFixed places

end Workbench
