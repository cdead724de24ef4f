/-
Reading JSON.

Each function reads one construct from the beginning of the text and gives what is left of it.
White space between tokens is four characters.  A value may be nested to any depth; the fuel of
the functions for values only counts the characters of the text, each of which a construct has
at least one of.
-/
import Workbench.Json.Value
import Workbench.Decimal.Integer

namespace Workbench.Json

/-- White space between tokens. -/
def isGap (c : Char) : Bool :=
  c == ' ' || c == '\n' || c == '\t' || c == '\r'

/-- The text without the white space it begins with. -/
def skipGap (text : List Char) : List Char :=
  text.dropWhile isGap

/-! ### Texts -/

/-- A sixteen bit unit of a text. -/
abbrev CodeUnit := Nat

/-- The value of a hexadecimal digit. -/
def hexDigit? (c : Char) : Option Nat :=
  if '0' ≤ c ∧ c ≤ '9' then some (c.toNat - '0'.toNat)
  else if 'a' ≤ c ∧ c ≤ 'f' then some (c.toNat - 'a'.toNat + 10)
  else if 'A' ≤ c ∧ c ≤ 'F' then some (c.toNat - 'A'.toNat + 10)
  else none

/-- The unit that four hexadecimal digits spell. -/
def unitOf (a b c d : Char) : Option CodeUnit := do
  pure ((((← hexDigit? a) * 16 + (← hexDigit? b)) * 16 + (← hexDigit? c)) * 16 + (← hexDigit? d))

/-- The characters that a backslash and one letter stand for. -/
def shortEscape? (c : Char) : Option Char :=
  if c = '"' ∨ c = '\\' ∨ c = '/' then some c
  else if c = 'b' then some (Char.ofNat 8)
  else if c = 'f' then some (Char.ofNat 12)
  else if c = 'n' then some '\n'
  else if c = 'r' then some '\r'
  else if c = 't' then some '\t'
  else none

/-- A part of a text. -/
inductive TextPart
  | char (c : Char)
  | unit (unit : CodeUnit)
deriving DecidableEq, Repr

/-- The parts of a text up to its closing quote. -/
def readParts : List Char → Option (List TextPart × List Char)
  | '"' :: rest => some ([], rest)
  | '\\' :: 'u' :: a :: b :: c :: d :: rest => do
      let unit ← unitOf a b c d
      let (parts, rest) ← readParts rest
      pure (.unit unit :: parts, rest)
  | '\\' :: c :: rest => do
      let escaped ← shortEscape? c
      let (parts, rest) ← readParts rest
      pure (.char escaped :: parts, rest)
  | c :: rest =>
      if c.toNat < 0x20 then none
      else do
        let (parts, rest) ← readParts rest
        pure (.char c :: parts, rest)
  | [] => none

/-- The first half of a surrogate pair. -/
def isHigh (unit : CodeUnit) : Bool :=
  0xD800 ≤ unit && unit ≤ 0xDBFF

/-- The second half of a surrogate pair. -/
def isLow (unit : CodeUnit) : Bool :=
  0xDC00 ≤ unit && unit ≤ 0xDFFF

/-- The characters that the parts stand for. -/
def charsOf : List TextPart → Option (List Char)
  | [] => some []
  | .char c :: parts => (charsOf parts).map (c :: ·)
  | .unit high :: .unit low :: parts =>
      if isHigh high then
        if isLow low then
          (charsOf parts).map
            (Char.ofNat (0x10000 + (high - 0xD800) * 0x400 + (low - 0xDC00)) :: ·)
        else none
      else if isLow high then none
      else (charsOf (.unit low :: parts)).map (Char.ofNat high :: ·)
  | .unit unit :: parts =>
      if isHigh unit || isLow unit then none
      else (charsOf parts).map (Char.ofNat unit :: ·)

/-- The text after an opening quote. -/
def readText (text : List Char) : Option (Option String × List Char) := do
  let (parts, rest) ← readParts text
  pure ((charsOf parts).map String.ofList, rest)

/-! ### Numbers -/

/-- The digits at the beginning of a text, if there are any. -/
def readDigits (text : List Char) : Option (List Char × List Char) :=
  let found := text.takeWhile Char.isDigit
  if found = [] then none else some (found, text.dropWhile Char.isDigit)

/-- The digits before the point; only zero alone begins with a zero. -/
def readWhole (text : List Char) : Option (List Char × List Char) := do
  let (found, rest) ← readDigits text
  if found.head? = some '0' ∧ found ≠ ['0'] then none else pure (found, rest)

/-- What follows a point and its digits. -/
def skipFraction : List Char → Option (List Char)
  | '.' :: rest => (readDigits rest).map Prod.snd
  | text => some text

/-- What follows a sign. -/
def skipSign : List Char → List Char
  | '+' :: rest => rest
  | '-' :: rest => rest
  | text => text

/-- What follows an exponent. -/
def skipExponent : List Char → Option (List Char)
  | 'e' :: rest => (readDigits (skipSign rest)).map Prod.snd
  | 'E' :: rest => (readDigits (skipSign rest)).map Prod.snd
  | text => some text

/-- A number; its value is known if nothing follows the whole part. -/
def readNumber (negative : Bool) (text : List Char) : Option (Option Int × List Char) := do
  let (found, rest) ← readWhole text
  let rest' ← skipFraction rest
  let rest'' ← skipExponent rest'
  let whole :=
    if rest''.length < rest.length ∨ (negative ∧ found = ['0']) then none
    else (readNatural found).map fun n => if negative then -(n : Int) else (n : Int)
  pure (whole, rest'')

/-! ### Values -/

mutual

/-- A value, and what follows it. -/
def readValue : Nat → List Char → Option (Json × List Char)
  | 0, _ => none
  | fuel + 1, text =>
      match skipGap text with
      | 'n' :: 'u' :: 'l' :: 'l' :: rest => some (.null, rest)
      | 't' :: 'r' :: 'u' :: 'e' :: rest => some (.bool true, rest)
      | 'f' :: 'a' :: 'l' :: 's' :: 'e' :: rest => some (.bool false, rest)
      | '"' :: rest => (readText rest).map fun found => (.string found.1, found.2)
      | '-' :: rest => (readNumber true rest).map fun found => (.number found.1, found.2)
      | '[' :: rest =>
          match skipGap rest with
          | ']' :: rest => some (.array [], rest)
          | rest => (readItems fuel rest).map fun found => (.array found.1, found.2)
      | '\x7b' :: rest =>
          match skipGap rest with
          | '\x7d' :: rest => some (.object [], rest)
          | rest => (readMembers fuel rest).map fun found => (.object found.1, found.2)
      | rest => (readNumber false rest).map fun found => (.number found.1, found.2)

/-- The items of an array up to its closing bracket. -/
def readItems : Nat → List Char → Option (List Json × List Char)
  | 0, _ => none
  | fuel + 1, text => do
      let (item, rest) ← readValue fuel text
      match skipGap rest with
      | ',' :: rest =>
          let (items, rest) ← readItems fuel rest
          pure (item :: items, rest)
      | ']' :: rest => pure ([item], rest)
      | _ => none

/-- The members of an object up to its closing brace. -/
def readMembers : Nat → List Char → Option (List (Option String × Json) × List Char)
  | 0, _ => none
  | fuel + 1, text =>
      match skipGap text with
      | '"' :: rest => do
          let (name, rest) ← readText rest
          match skipGap rest with
          | ':' :: rest => do
              let (value, rest) ← readValue fuel rest
              match skipGap rest with
              | ',' :: rest =>
                  let (members, rest) ← readMembers fuel rest
                  pure ((name, value) :: members, rest)
              | '\x7d' :: rest => pure ([(name, value)], rest)
              | _ => none
          | _ => none
      | _ => none

end

/-- The value that a whole text spells. -/
def read (text : List Char) : Option Json := do
  let (value, rest) ← readValue (text.length + 1) text
  if skipGap rest = [] then some value else none

end Workbench.Json
