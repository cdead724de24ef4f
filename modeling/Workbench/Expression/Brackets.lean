/-
Classes of characters between brackets.

A class lists characters, ranges, named classes and further classes between brackets of their
own.  Two ampersands, two hyphens or two tildes combine what stands before them with what
follows.  Hyphens at the beginning are characters, and so is a closing bracket that comes first.

A class is not kept: of a class that can be read, `Option Nat` answers how deeply its parts are
nested in each other.
-/
import Workbench.Expression.Escape

namespace Workbench.Expression

/-! ### Nesting -/

/-- The nesting of parts side by side; a part alone adds none. -/
def nestingOf : List Nat → Nat
  | [] => 0
  | [depth] => depth
  | depths => depths.foldl max 0 + 1

/-- The nesting of two combined classes, the first of which may be missing. -/
def nestingAfter (first : Option Nat) (second : Nat) : Nat :=
  match first with
  | none => second
  | some first => max first second + 1

/-! ### Members -/

/-- The names of classes between colons. -/
def classNames : List String :=
  ["alnum", "alpha", "ascii", "blank", "cntrl", "digit", "graph", "lower", "print", "punct",
    "space", "upper", "word", "xdigit"]

/-- A named class between brackets and colons at the beginning of a text: whether it is what lies
outside, and what follows it. -/
def readNamed : List Char → Option (Bool × List Char)
  | '[' :: ':' :: text =>
      let negated := text.head? == some '^'
      let text := if negated then text.drop 1 else text
      match text.dropWhile (· != ':') with
      | ':' :: ']' :: rest =>
          if classNames.contains (String.ofList (text.takeWhile (· != ':'))) then
            some (negated, rest)
          else none
      | _ => none
  | _ => none

/-- A character or what a backslash begins. -/
def readMember (mode : Mode) : List Char → Option (Atom × List Char)
  | [] => none
  | '\\' :: text => readEscape mode text
  | c :: text => some (.char c, text)

/-- A member or a range, and what follows it. -/
def readRange (mode : Mode) (text : List Char) : Option (List Char) := do
  let (first, rest) ← readMember mode text
  match mode.skip rest with
  | [] => none
  | '-' :: behind =>
      if mode.peek behind = some ']' ∨ mode.peek behind = some '-' then
        if first.allowedInBrackets mode then pure ('-' :: behind) else none
      else
        let (last, rest) ← readMember mode (mode.skip behind)
        let low ← first.char?
        let high ← last.char?
        if low ≤ high ∧ first.allowedInBrackets mode = true ∧ last.allowedInBrackets mode = true
        then pure rest
        else none
  | rest => if first.allowedInBrackets mode then pure rest else none

/-! ### Classes -/

mutual

/-- What follows the bracket that opens a class. -/
def readClass (mode : Mode) : Nat → List Char → Option (Nat × List Char)
  | 0, _ => none
  | fuel + 1, text =>
      match mode.skip text with
      | '^' :: rest => if mode.unicode then readMembers mode fuel true [] none rest else none
      | text => readMembers mode fuel true [] none text

/-- The members of a class up to its closing bracket.  `members` are the nestings of those before
the text, `first` is the class that they are combined with, and `opening` tells whether only
hyphens have come so far. -/
def readMembers (mode : Mode) : Nat → Bool → List Nat → Option Nat → List Char →
    Option (Nat × List Char)
  | 0, _, _, _, _ => none
  | fuel + 1, opening, members, first, text =>
      let text := mode.skip text
      if opening = true ∧ text.head? = some '-' then
        readMembers mode fuel true (0 :: members) first (text.drop 1)
      else if opening = true ∧ members = [] ∧ text.head? = some ']' then
        readMembers mode fuel false [0] first (text.drop 1)
      else
        match text with
        | [] => none
        | ']' :: rest => some (nestingAfter first (nestingOf members) + 1, rest)
        | '[' :: rest =>
            match readNamed ('[' :: rest) with
            | some (negated, rest) =>
                if negated && !mode.unicode then none
                else readMembers mode fuel false (0 :: members) first rest
            | none => do
                let (depth, rest) ← readClass mode fuel rest
                readMembers mode fuel false (depth :: members) first rest
        | '&' :: '&' :: rest =>
            readMembers mode fuel false [] (some (nestingAfter first (nestingOf members))) rest
        | '-' :: '-' :: rest =>
            readMembers mode fuel false [] (some (nestingAfter first (nestingOf members))) rest
        | '~' :: '~' :: rest =>
            readMembers mode fuel false [] (some (nestingAfter first (nestingOf members))) rest
        | text => do readMembers mode fuel false (0 :: members) first (← readRange mode text)

end

/-- The class behind an opening bracket: its nesting, and what follows its closing bracket. -/
def readBrackets (mode : Mode) (text : List Char) : Option (Nat × List Char) :=
  readClass mode (2 * text.length + 2) text

end Workbench.Expression
