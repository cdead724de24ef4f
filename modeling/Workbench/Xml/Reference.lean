/-
Escaping of character data and attribute values, and the way back.

Writing replaces the three characters that markup reserves, and in values the double quote, by
their names between an ampersand and a semicolon.  Reading accepts the five predefined names and
character numbers, decimal or, after an `x`, hexadecimal.
-/
import Workbench.Xml.Fault

namespace Workbench.Xml

/-! ### Writing -/

/-- How a character is written in character data. -/
def escapeChar (c : Char) : List Char :=
  if c = '&' then ['&', 'a', 'm', 'p', ';']
  else if c = '<' then ['&', 'l', 't', ';']
  else if c = '>' then ['&', 'g', 't', ';']
  else [c]

/-- How a character is written in an attribute value between double quotes. -/
def escapeValueChar (c : Char) : List Char :=
  if c = '"' then ['&', 'q', 'u', 'o', 't', ';'] else escapeChar c

/-- Character data as it is written. -/
def escape (cs : List Char) : List Char :=
  cs.flatMap escapeChar

/-- An attribute value as it is written. -/
def escapeValue (cs : List Char) : List Char :=
  cs.flatMap escapeValueChar

/-! ### Reading -/

/-- The value of a digit up to the base. -/
def digitValue? (base : Nat) (c : Char) : Option Nat :=
  let value? :=
    if '0' ≤ c ∧ c ≤ '9' then some (c.toNat - '0'.toNat)
    else if 'a' ≤ c ∧ c ≤ 'z' then some (c.toNat - 'a'.toNat + 10)
    else if 'A' ≤ c ∧ c ≤ 'Z' then some (c.toNat - 'A'.toNat + 10)
    else none
  value?.filter (· < base)

/-- The number that digits spell after the number `n`, within thirty-two bits.  The first
character at fault decides which fault it is, and a character that is no digit comes before a
number that is too large. -/
def codeAfter (base n : Nat) : List Char → Except NumberFault Nat
  | [] => .ok n
  | c :: cs =>
      match digitValue? base c with
      | none => .error .digit
      | some d =>
          if n * base + d < Nat.pow 2 32 then codeAfter base (n * base + d) cs
          else .error .tooLarge

/-- The number that one or more digits without a sign spell. -/
def readCode (base : Nat) : List Char → Except ReferenceFault Nat
  | [] => .error (.number .empty)
  | c :: cs =>
      if c = '+' ∨ c = '-' then .error .signed
      else (codeAfter base 0 (c :: cs)).mapError .number

/-- The character with a number. -/
def charOfCode (code : Nat) : Except ReferenceFault Char :=
  if code = 0 then .error .zero
  else if code.isValidChar then .ok (Char.ofNat code)
  else .error (.notScalar code)

/-- The character that a number after the hash sign stands for. -/
def numberedChar : List Char → Except ReferenceFault Char
  | 'x' :: cs => readCode 16 cs >>= charOfCode
  | cs => readCode 10 cs >>= charOfCode

/-- The character with a predefined name. -/
def namedChar? (name : List Char) : Option Char :=
  if name = ['l', 't'] then some '<'
  else if name = ['g', 't'] then some '>'
  else if name = ['a', 'm', 'p'] then some '&'
  else if name = ['a', 'p', 'o', 's'] then some '\''
  else if name = ['q', 'u', 'o', 't'] then some '"'
  else none

/-- The character that a reference stands for; `start` is where its content begins. -/
def referencedChar (start : Nat) : List Char → Except ReferenceFault Char
  | '#' :: number => numberedChar number
  | name =>
      match namedChar? name with
      | some c => .ok c
      | none => .error (.unknownName start (start + Utf8.byteSize name) (String.ofList name))

/-- A character that may stand between the ampersand and the semicolon. -/
def inReference (c : Char) : Bool :=
  c != '&' && c != ';'

/-- The text behind the references of `cs`, which stands at `position` in a text of `total`
bytes. -/
def unescapeFrom (total position : Nat) (cs : List Char) : Except ReferenceFault (List Char) :=
  match cs with
  | [] => .ok []
  | c :: rest =>
      if c = '&' then
        let content := rest.takeWhile inReference
        match _h : rest.dropWhile inReference with
        | ';' :: more => do
            let d ← referencedChar (position + 1) content
            let text ← unescapeFrom total (position + 1 + Utf8.byteSize content + 1) more
            pure (d :: text)
        | _ => .error (.unterminated position total)
      else do
        let text ← unescapeFrom total (position + c.utf8Size) rest
        pure (c :: text)
termination_by cs.length
decreasing_by
  · have := (List.dropWhile_suffix (l := rest) inReference).length_le
    simp_all
    omega
  · simp

/-- The text behind the references of `cs`. -/
def unescape (cs : List Char) : Except ReferenceFault (List Char) :=
  unescapeFrom (Utf8.byteSize cs) 0 cs

end Workbench.Xml
