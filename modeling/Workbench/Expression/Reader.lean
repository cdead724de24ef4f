/-
Telling whether a text is a regular expression.

The text is read once from left to right.  Groups that are open are kept in a list, the innermost
first, each with the modes that hold again behind it; a change of modes without a group of its
own holds up to the end of the group it stands in.  Nothing is kept of what has been read but how
deeply its parts are nested in each other, because an expression that is nested too deeply is
refused.

An expression is read from between braces, so it has no closing brace, and whatever would need
one is refused.
-/
import Workbench.Expression.Brackets
import Workbench.Text.Alphanumeric

namespace Workbench.Expression

/-- What stands in a sequence. -/
inductive Item
  /-- A change of modes. -/
  | change
  /-- A part that can be repeated, with its nesting. -/
  | part (depth : Nat)
deriving DecidableEq, Repr, Inhabited

/-- The nesting of an item. -/
def Item.depth : Item → Nat
  | .change => 0
  | .part depth => depth

/-- Alternatives of which the last one is being read. -/
structure Branches where
  /-- The items of the last alternative, the last one first. -/
  items : List Item
  /-- The nestings of the alternatives before it. -/
  done : List Nat
deriving DecidableEq, Repr, Inhabited

namespace Branches

/-- Nothing has been read. -/
def empty : Branches := ⟨[], []⟩

/-- One more item. -/
def push (branches : Branches) (item : Item) : Branches :=
  { branches with items := item :: branches.items }

/-- The nesting of the last alternative. -/
def lastDepth (branches : Branches) : Nat :=
  nestingOf (branches.items.map Item.depth)

/-- The alternative is complete, and another one begins. -/
def next (branches : Branches) : Branches :=
  ⟨[], branches.lastDepth :: branches.done⟩

/-- The nesting of all alternatives. -/
def depth (branches : Branches) : Nat :=
  nestingOf (branches.lastDepth :: branches.done)

/-- The last item is repeated, if it can be. -/
def repeatLast (branches : Branches) : Option Branches :=
  match branches.items with
  | .part depth :: items => some { branches with items := .part (depth + 1) :: items }
  | _ => none

end Branches

/-- An expression that has been read in part. -/
structure Progress where
  mode : Mode
  /-- The innermost open group. -/
  branches : Branches
  /-- What stands around it, the innermost first, with the modes to go back to. -/
  outer : List (Branches × Mode)
  /-- The names of groups. -/
  names : List (List Char)
deriving DecidableEq, Repr, Inhabited

namespace Progress

/-- Nothing has been read. -/
def start : Progress := ⟨.standard, .empty, [], []⟩

/-- One more item. -/
def push (progress : Progress) (item : Item) : Progress :=
  { progress with branches := progress.branches.push item }

/-- A group begins, in which other modes may hold. -/
def enter (progress : Progress) (mode : Mode) : Progress :=
  { progress with
    mode := mode
    branches := .empty
    outer := (progress.branches, progress.mode) :: progress.outer }

/-- The innermost group is complete. -/
def leave (progress : Progress) : Option Progress :=
  match progress.outer with
  | [] => none
  | (branches, mode) :: outer =>
      some { progress with
        mode := mode
        branches := branches.push (.part (progress.branches.depth + 1))
        outer := outer }

/-- A part that is no smaller than a character. -/
def addAtom (progress : Progress) (atom : Atom) : Option Progress :=
  if atom.allowed progress.mode then some (progress.push (.part 0)) else none

end Progress

/-! ### Groups -/

/-- A character that the name of a group may begin with. -/
def beginsName (c : Char) : Bool :=
  c == '_' || Text.isAlphabetic c

/-- A character that continues the name of a group. -/
def inName (c : Char) : Bool :=
  c == '_' || c == '.' || c == '[' || c == ']' || Text.isAlphanumeric c

/-- A text can be the name of a group. -/
def isName : List Char → Bool
  | [] => false
  | c :: rest => beginsName c && rest.all inName

/-- A group with a name, of which no other group has the same. -/
def readName (progress : Progress) (text : List Char) : Option (Progress × List Char) :=
  let name := text.takeWhile (· != '>')
  match text.dropWhile (· != '>') with
  | [] => none
  | _ :: rest =>
      if isName name && !progress.names.contains name then
        some ({ progress with names := name :: progress.names }.enter progress.mode, rest)
      else none

/-- A character that continues a change of modes. -/
def inChange (c : Char) : Bool :=
  c != ':' && c != ')'

/-- A change of modes, for the rest of a group or for a group of its own. -/
def readChange (progress : Progress) (text : List Char) : Option (Progress × List Char) :=
  let letters := text.takeWhile inChange
  if !areModes letters then none
  else
    let mode := progress.mode.change letters
    match text.dropWhile inChange with
    | ':' :: rest => some (progress.enter mode, rest)
    | ')' :: rest =>
        if letters = [] then none
        else some ({ progress with mode := mode }.push .change, rest)
    | _ => none

/-- What follows an opening parenthesis.  Looking ahead or back is not possible. -/
def readGroup (progress : Progress) (text : List Char) : Option (Progress × List Char) :=
  match progress.mode.skip text with
  | '?' :: '=' :: _ => none
  | '?' :: '!' :: _ => none
  | '?' :: '<' :: '=' :: _ => none
  | '?' :: '<' :: '!' :: _ => none
  | '?' :: 'P' :: '<' :: rest => readName progress rest
  | '?' :: '<' :: rest => readName progress rest
  | '?' :: rest => readChange progress rest
  | rest => some (progress.enter progress.mode, rest)

/-! ### The whole expression -/

/-- The text behind the mark that makes a repetition stop early. -/
def skipLazy : List Char → List Char
  | '?' :: text => text
  | text => text

/-- One more step: what has been read after it, and the text that is left. -/
def readStep (progress : Progress) (c : Char) (text : List Char) :
    Option (Progress × List Char) :=
  if c = '(' then readGroup progress text
  else if c = ')' then progress.leave.map (·, text)
  else if c = '|' then some ({ progress with branches := progress.branches.next }, text)
  else if c = '[' then
    (readBrackets progress.mode text).map fun found => (progress.push (.part found.1), found.2)
  else if c = '?' ∨ c = '*' ∨ c = '+' then
    progress.branches.repeatLast.map fun branches =>
      ({ progress with branches := branches }, skipLazy text)
  else if c = '\x7b' then none
  else if c = '\\' then do
    let (atom, rest) ← readEscape progress.mode text
    pure (← progress.addAtom atom, rest)
  else
    let atom : Atom := if c = '.' then .any else if c = '^' ∨ c = '$' then .edge else .char c
    (progress.addAtom atom).map (·, text)

/-- Everything that is left. -/
def readAll : Nat → Progress → List Char → Option Progress
  | 0, _, _ => none
  | fuel + 1, progress, text =>
      match progress.mode.skip text with
      | [] => some progress
      | c :: rest => do
          let (progress, rest) ← readStep progress c rest
          readAll fuel progress rest

/-- How deeply the parts of an expression may be nested. -/
def nestingLimit : Nat := 250

/-- A text is a regular expression. -/
def isExpression (text : List Char) : Bool :=
  (readAll (text.length + 1) .start text).any fun progress =>
    progress.outer.isEmpty && decide (progress.branches.depth ≤ nestingLimit)

end Workbench.Expression
