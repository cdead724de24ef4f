/-
Environment variables, and the home directory.

The environment is a list of entries, each a name, an equals sign and a value.  A variable is
looked up by the text that its entry has to begin with, so a name that contains an equals sign
can be found in the value of another.

The home directory is what `HOME` says.  Where it says nothing the system may know one for the user,
and a user that the system does not know has none.
-/
import Workbench.Path.Basic

namespace Workbench

/-- The entries, in order, and what the system knows of the user. -/
structure Environment where
  entries : List (List Char)
  /-- The home directory that the system has for the user, if there is one. -/
  registered : Option (List Char)
deriving DecidableEq, Repr, Inhabited

/-- What follows `start` in `text`, if the text begins with it. -/
def afterStart {α : Type} [DecidableEq α] : List α → List α → Option (List α)
  | [], text => some text
  | a :: start, b :: text => if a = b then afterStart start text else none
  | _ :: _, [] => none

namespace Environment

/-- An environment from names and values, of a user that the system does not know. -/
def ofPairs (pairs : List (String × String)) : Environment :=
  ⟨pairs.map fun pair => pair.1.toList ++ '=' :: pair.2.toList, none⟩

/-- The value of a variable. -/
def get? (environment : Environment) (name : List Char) : Option (List Char) :=
  if name = [] ∨ name.contains '\x00' then none
  else environment.entries.findSome? (afterStart (name ++ ['=']))

/-- The home directory: the variable `HOME` unless it is empty, and what the system has else. -/
def home (environment : Environment) : Option (List Char) :=
  match environment.get? "HOME".toList with
  | some value => if value = [] then environment.registered else some value
  | none => environment.registered

/-- The home directory, or the text of the error if there is none. -/
def homeDirectory (environment : Environment) : Except String (List Char) :=
  match environment.home with
  | some home => .ok home
  | none => .error "Could not determine home directory"

/-- The list of directories in which programs are looked for. -/
def searchPath (environment : Environment) : Option (List Char) :=
  environment.get? "PATH".toList

end Environment

end Workbench
