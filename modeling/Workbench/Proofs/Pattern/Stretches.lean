/-
Texts with slashes to spare.

A text is searched part by part, and its parts are the stretches between its slashes.  So what is
known about an empty part holds of a slash that is written twice: it changes no find, wherever among
names it stands, and whatever is searched behind it.  The one that is written at the end is not a
part; it leaves of what is found the directories.

Where a path only leads up there is no path of the length that makes a difference: each of its
stretches takes three bytes with the slash in front of it.
-/
import Workbench.Proofs.Pattern.Slashes

namespace Workbench.Pattern

open Workbench.Path (Name Component IsRoute spell)

variable {files : Files} {search : Search} {parts : List Part} {fuel : Nat}

/-! ### Texts -/

section Texts

variable {text rest last : List Char}

end Texts

/-! ### Texts that lead up -/

section Up

variable {text : List Char} {route more : List Component} {found : List Char}

end Up

/-! ### A slash that is one byte too many -/

section Long

variable {rest : List Char} {route entries : List Component}

end Long

/-! ### All slashes of a text -/

/-- Stretches, each with a slash in front. -/
def slashed (stretches : List (List Char)) : List Char :=
  stretches.flatMap ('/' :: ·)

section Slashed

variable {text rest : List Char} {component : Component} {stretches : List (List Char)}

end Slashed

end Workbench.Pattern
