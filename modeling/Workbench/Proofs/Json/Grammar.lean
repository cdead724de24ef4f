/-
How JSON is written.

The grammar says of a construct and a text that the text is one way to write the construct, and it
says nothing of reading.  Its productions are those of the JSON standard: white space may stand
around values and names, a number has digits before the point, with a zero only alone, and may have
a fraction and an exponent, and a text in quotes is made of characters and escapes.

A number has a value here if it is written as the library prints that value.  An escape is for a
character or for a sixteen bit unit, and a text is what has the same units as its parts; where half
of a pair of units stands alone there is no such text.
-/
import Workbench.Decimal.Numeral
import Workbench.Json.Reader

namespace Workbench.Json

/-- White space between tokens, or nothing. -/
def IsGap (text : List Char) : Prop :=
  ∀ c ∈ text, isGap c = true

/-! ### Texts in quotes -/

/-- A text for one part of what stands between quotes. -/
inductive IsPart : TextPart → List Char → Prop
  | char {c : Char} (hquote : c ≠ '"') (hbackslash : c ≠ '\\') (hcontrol : 0x20 ≤ c.toNat) :
      IsPart (.char c) [c]
  | short {letter c : Char} (h : shortEscape? letter = some c) : IsPart (.char c) ['\\', letter]
  | unit {a b c d : Char} {unit : CodeUnit} (h : unitOf a b c d = some unit) :
      IsPart (.unit unit) ['\\', 'u', a, b, c, d]

/-- Parts one behind the other. -/
inductive AreParts : List TextPart → List Char → Prop
  | nil : AreParts [] []
  | cons {part : TextPart} {parts : List TextPart} {text more : List Char} (h : IsPart part text)
      (hmore : AreParts parts more) : AreParts (part :: parts) (text ++ more)

/-- The sixteen bit units of a character: its code, or two halves of it. -/
def unitsOf (c : Char) : List CodeUnit :=
  if c.toNat < 0x10000 then [c.toNat]
  else [0xD800 + (c.toNat - 0x10000) / 0x400, 0xDC00 + (c.toNat - 0x10000) % 0x400]

/-- The sixteen bit units of a part. -/
def TextPart.units : TextPart → List CodeUnit
  | .char c => unitsOf c
  | .unit half => [half]

/-- A text in quotes, and the characters that have the same units as its parts. -/
inductive IsText : Option String → List Char → Prop
  | chars {parts : List TextPart} {text : List Char} {content : String} (h : AreParts parts text)
      (hunits : parts.flatMap TextPart.units = content.toList.flatMap unitsOf) :
      IsText (some content) ('"' :: (text ++ ['"']))
  /-- Half of a character stands alone. -/
  | halved {parts : List TextPart} {text : List Char} (h : AreParts parts text)
      (hunits : ∀ content : String,
        parts.flatMap TextPart.units ≠ content.toList.flatMap unitsOf) :
      IsText none ('"' :: (text ++ ['"']))

/-! ### Numbers -/

/-- Digits before the point. -/
structure IsWhole (digits : List Char) : Prop where
  isDigits : areDigits digits = true
  unpadded : digits.head? = some '0' → digits = ['0']

/-- A point with digits behind it, or nothing. -/
inductive IsFraction : List Char → Prop
  | absent : IsFraction []
  | present {digits : List Char} (h : areDigits digits = true) : IsFraction ('.' :: digits)

/-- A number, and its value if it is written as the library prints a whole number. -/
inductive IsNumber : Option Int → List Char → Prop
  | printed (i : Int) : IsNumber (some i) (toString i).toList
  | minusZero : IsNumber none ['-', '0']
  | other {sign digits fraction exponent : List Char} (hsign : sign = [] ∨ sign = ['-'])
      (hdigits : IsWhole digits) (hfraction : IsFraction fraction)
      (hexponent : isExponent exponent = true) (h : fraction ++ exponent ≠ []) :
      IsNumber none (sign ++ (digits ++ (fraction ++ exponent)))

/-! ### Values -/

/-- A construct of the grammar. -/
inductive Phrase
  | value (json : Json)
  /-- A value with white space on both sides. -/
  | element (json : Json)
  /-- The items of an array that is not empty. -/
  | items (items : List Json)
  /-- The members of an object that is not empty. -/
  | members (members : List (Option String × Json))

/-- A text is one way to write a construct. -/
inductive Written : Phrase → List Char → Prop
  | null : Written (.value .null) "null".toList
  | yes : Written (.value (.bool true)) "true".toList
  | no : Written (.value (.bool false)) "false".toList
  | number {whole : Option Int} {text : List Char} (h : IsNumber whole text) :
      Written (.value (.number whole)) text
  | string {content : Option String} {text : List Char} (h : IsText content text) :
      Written (.value (.string content)) text
  | emptyArray {gap : List Char} (hgap : IsGap gap) :
      Written (.value (.array [])) ('[' :: (gap ++ [']']))
  | array {items : List Json} {text : List Char} (h : Written (.items items) text) :
      Written (.value (.array items)) ('[' :: (text ++ [']']))
  | emptyObject {gap : List Char} (hgap : IsGap gap) :
      Written (.value (.object [])) ('\x7b' :: (gap ++ ['\x7d']))
  | object {members : List (Option String × Json)} {text : List Char}
      (h : Written (.members members) text) :
      Written (.value (.object members)) ('\x7b' :: (text ++ ['\x7d']))
  | element {json : Json} {before text behind : List Char} (hbefore : IsGap before)
      (h : Written (.value json) text) (hbehind : IsGap behind) :
      Written (.element json) (before ++ (text ++ behind))
  | item {item : Json} {text : List Char} (h : Written (.element item) text) :
      Written (.items [item]) text
  | items {item : Json} {items : List Json} {text more : List Char}
      (h : Written (.element item) text) (hmore : Written (.items items) more) :
      Written (.items (item :: items)) (text ++ ',' :: more)
  | member {name : Option String} {value : Json} {before quoted behind text : List Char}
      (hbefore : IsGap before) (hname : IsText name quoted) (hbehind : IsGap behind)
      (h : Written (.element value) text) :
      Written (.members [(name, value)]) (before ++ (quoted ++ (behind ++ ':' :: text)))
  | members {name : Option String} {value : Json} {members : List (Option String × Json)}
      {before quoted behind text more : List Char} (hbefore : IsGap before)
      (hname : IsText name quoted) (hbehind : IsGap behind) (h : Written (.element value) text)
      (hmore : Written (.members members) more) :
      Written (.members ((name, value) :: members))
        (before ++ (quoted ++ (behind ++ ':' :: (text ++ ',' :: more))))

/-- A whole text is a value. -/
def IsDocument (json : Json) (text : List Char) : Prop :=
  Written (.element json) text

end Workbench.Json
