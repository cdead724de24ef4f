/-
Modes of a regular expression, and what they make of blanks.

Two of the modes decide whether an expression can be read.  In verbose mode blanks between
the parts of an expression mean nothing, and neither does the rest of a line after a hash sign.
In Unicode mode an expression speaks of characters, outside of it of bytes; but what it finds is
always text, so outside of Unicode mode nothing may stand for a byte beyond ASCII.
-/
import Workbench.Text.Blank

namespace Workbench.Expression

/-- The modes in which a part of an expression is read. -/
structure Mode where
  verbose : Bool
  unicode : Bool
deriving DecidableEq, Repr, Inhabited

/-- The modes in which an expression begins. -/
def Mode.standard : Mode := ⟨false, true⟩

/-- The text without the blanks and the comments that it begins with; `comment` tells whether it
begins inside a comment. -/
def skipComments (comment : Bool) : List Char → List Char
  | [] => []
  | c :: text =>
      if comment then skipComments (c != '\n') text
      else if Text.isBlank c then skipComments false text
      else if c = '#' then skipComments true text
      else c :: text

/-- The text from the next character on that means something. -/
def Mode.skip (mode : Mode) (text : List Char) : List Char :=
  if mode.verbose then skipComments false text else text

/-- The first character that is no blank, one hash sign at most left out. -/
def firstVisible (hash : Bool) : List Char → Option Char
  | [] => none
  | c :: text =>
      if Text.isBlank c then firstVisible hash text
      else if c = '#' ∧ hash = false then firstVisible true text
      else some c

/-- The character that decides whether a hyphen before `text` makes a range. -/
def Mode.peek (mode : Mode) (text : List Char) : Option Char :=
  if mode.verbose then firstVisible false text else text.head?

/-! ### Changing modes -/

/-- The letters of all modes, most of which make no difference here. -/
def modeLetters : List Char := ['i', 'm', 's', 'U', 'u', 'R', 'x']

/-- The letters and the hyphen, each at most once, and no hyphen at the end. -/
def areModes (letters : List Char) : Bool :=
  letters.all (fun c => c == '-' || modeLetters.contains c) && letters.Nodup &&
    letters.getLast? != some '-'

/-- The setting of a mode after a change of modes: letters before a hyphen switch modes on, those
behind it off. -/
def changed (letters : List Char) (letter : Char) (setting : Bool) : Bool :=
  if (letters.takeWhile (· != '-')).contains letter then true
  else if letters.contains letter then false
  else setting

/-- The modes after a change. -/
def Mode.change (mode : Mode) (letters : List Char) : Mode :=
  ⟨changed letters 'x' mode.verbose, changed letters 'u' mode.unicode⟩

end Workbench.Expression
