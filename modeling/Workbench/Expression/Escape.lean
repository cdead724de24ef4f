/-
The smallest parts of a regular expression: characters, and what a backslash begins.
-/
import Workbench.Expression.Mode

namespace Workbench.Expression

/-- A smallest part. -/
inductive Atom
  /-- A character. -/
  | char (c : Char)
  /-- A character given by two hexadecimal digits, which is a byte outside of Unicode mode. -/
  | byte (c : Char)
  /-- One of the three common classes, or what lies outside of it. -/
  | common (negated : Bool)
  /-- A class of characters by their Unicode category. -/
  | category
  /-- Any character, the end of a line excepted. -/
  | any
  /-- An end of the text or of a line. -/
  | edge
  /-- An end of a word. -/
  | wordEdge
deriving DecidableEq, Repr, Inhabited

/-- The part may stand outside of brackets.  The ends of words are known for ASCII only. -/
def Atom.allowed (mode : Mode) : Atom → Bool
  | .char _ => true
  | .byte c => mode.unicode || c.toNat < 0x80
  | .common negated => mode.unicode || !negated
  | .category => mode.unicode
  | .any => mode.unicode
  | .edge => true
  | .wordEdge => !mode.unicode

/-- The part may stand between brackets. -/
def Atom.allowedInBrackets (mode : Mode) : Atom → Bool
  | .char c => mode.unicode || c.toNat < 0x80
  | .byte c => mode.unicode || c.toNat < 0x80
  | .common negated => mode.unicode || !negated
  | .category => mode.unicode
  | _ => false

/-- The character, for a part that can be an end of a range. -/
def Atom.char? : Atom → Option Char
  | .char c => some c
  | .byte c => some c
  | _ => none

/-! ### After a backslash -/

/-- The value of a hexadecimal digit. -/
def hexValue? (c : Char) : Option Nat :=
  if '0' ≤ c ∧ c ≤ '9' then some (c.toNat - '0'.toNat)
  else if 'a' ≤ c ∧ c ≤ 'f' then some (c.toNat - 'a'.toNat + 10)
  else if 'A' ≤ c ∧ c ≤ 'F' then some (c.toNat - 'A'.toNat + 10)
  else none

/-- The number that `count` digits spell after the number `n`, and what follows them. -/
def readHex (mode : Mode) (n : Nat) : Nat → List Char → Option (Nat × List Char)
  | 0, text => some (n, mode.skip text)
  | count + 1, text =>
      match mode.skip text with
      | [] => none
      | c :: rest => do readHex mode (n * 16 + (← hexValue? c)) count rest

/-- The character that `count` digits give. -/
def readCode (mode : Mode) (count : Nat) (text : List Char) : Option (Char × List Char) := do
  let (code, rest) ← readHex mode 0 count text
  if code.isValidChar then pure (Char.ofNat code, rest) else none

/-- The Unicode categories that have a name of one letter. -/
def categoryLetters : List Char := ['c', 'l', 'm', 'n', 'p', 's', 'z']

/-- A category of one letter, in either case.  Longer names stand between braces. -/
def readCategory (mode : Mode) (text : List Char) : Option (Atom × List Char) :=
  match mode.skip text with
  | [] => none
  | c :: rest => if categoryLetters.contains c.toLower then some (.category, mode.skip rest) else none

/-- The letters that stand for control characters after a backslash. -/
def controlLetters : List (Char × Char) :=
  [('a', '\x07'), ('f', '\x0c'), ('t', '\t'), ('n', '\n'), ('r', '\r'), ('v', '\x0b')]

/-- A character of ASCII that stands for itself after a backslash. -/
def standsForItself (c : Char) : Bool :=
  c.toNat < 0x80 && !c.isAlphanum && c != '<' && c != '>'

/-- What a backslash before `text` begins.  What would need a closing brace is not read, because
an expression has none. -/
def readEscape (mode : Mode) (text : List Char) : Option (Atom × List Char) :=
  match text with
  | [] => none
  | 'x' :: rest => (readCode mode 2 rest).map fun found => (.byte found.1, found.2)
  | 'u' :: rest => (readCode mode 4 rest).map fun found => (.char found.1, found.2)
  | 'U' :: rest => (readCode mode 8 rest).map fun found => (.char found.1, found.2)
  | 'p' :: rest => readCategory mode rest
  | 'P' :: rest => readCategory mode rest
  | 'b' :: rest => if rest.head? = some '\x7b' then none else some (.wordEdge, rest)
  | c :: rest =>
      if ['d', 's', 'w'].contains c then some (.common false, rest)
      else if ['D', 'S', 'W'].contains c then some (.common true, rest)
      else if ['A', 'z'].contains c then some (.edge, rest)
      else if ['B', '<', '>'].contains c then some (.wordEdge, rest)
      else if standsForItself c then some (.char c, rest)
      else (controlLetters.lookup c).map fun control => (.char control, rest)

end Workbench.Expression
