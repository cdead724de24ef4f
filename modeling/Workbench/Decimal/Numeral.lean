/-
Texts that are numbers: an optional sign, digits with a point among them or beside them, and an
optional exponent, or one of the names of what is not finite.
-/

namespace Workbench

/-- The text without a sign that it begins with. -/
def withoutSign : List Char → List Char
  | '+' :: text => text
  | '-' :: text => text
  | text => text

/-- One or more digits and nothing else. -/
def areDigits (text : List Char) : Bool :=
  !text.isEmpty && text.all Char.isDigit

/-- Nothing, or an exponent. -/
def isExponent : List Char → Bool
  | [] => true
  | c :: text => (c == 'e' || c == 'E') && areDigits (withoutSign text)

/-- Digits with a point and an exponent, either of which may be missing. -/
def isUnsignedNumeral (text : List Char) : Bool :=
  let whole := text.takeWhile Char.isDigit
  match text.dropWhile Char.isDigit with
  | '.' :: rest =>
      (!whole.isEmpty || (rest.head?.any Char.isDigit)) &&
        isExponent (rest.dropWhile Char.isDigit)
  | rest => !whole.isEmpty && isExponent rest

/-- The names of numbers that are not finite, in letters of either case. -/
def nonFiniteNames : List String := ["inf", "infinity", "nan"]

/-- A text is a number. -/
def isNumeral (text : List Char) : Bool :=
  let unsigned := withoutSign text
  nonFiniteNames.contains (String.ofList (unsigned.map Char.toLower)) ||
    isUnsignedNumeral unsigned

end Workbench
