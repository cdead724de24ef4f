/-
Looking for programs.

A program is looked for in the directories of a search path, empty entries left out, and in the
current directory after them.  A program whose name has several components is not looked for:
it stands where it says.  Only regular files with an execute bit count.  Where nothing is found,
a fallback may stand in.
-/
import Workbench.Environment
import Workbench.Files.Locate
import Workbench.Log.Event
import Workbench.Path.SearchList

namespace Workbench

/-- A path behind the current directory, unless it is absolute. -/
def Files.behindHere (files : Files) (path : List Char) : List Char :=
  if Path.isAbsolute path then path
  else Path.extend (placeText files.here) (Path.withoutCurrent (Path.components path))

/-- The path begins with the component `~`. -/
def beginsAtHome (path : List Char) : Bool :=
  (Path.components path).head? == some (.name ['~'])

/-- A directory with the home directory, if there is one, in place of a first component `~`. -/
def Environment.expandDirectory (environment : Environment) (directory : List Char) : List Char :=
  if beginsAtHome directory then
    match environment.home with
    | some home => Path.extend home ((Path.components directory).drop 1)
    | none => directory
  else directory

/-- The directory that an entry of a search path stands for.  A relative one begins at the
current directory, unless it begins with a component `~` even after its expansion. -/
def searchDirectory (files : Files) (environment : Environment) (entry : List Char) : List Char :=
  let directory := environment.expandDirectory entry
  if beginsAtHome directory then directory else files.behindHere directory

/-- Where a program would stand in a directory. -/
def candidate (files : Files) (environment : Environment) (program entry : List Char) :
    List Char :=
  if 1 < (Path.components program).length then files.behindHere program
  else Path.join (searchDirectory files environment entry) program

/-- The directories of a search path, with the current one at the end. -/
def searchedDirectories (searchPath : Option (List Char)) : List (List Char) :=
  (searchPath.elim [] Path.searchList).filter (· ≠ []) ++ [['.']]

/-- The first place where a program stands. -/
def firstExecutable (files : Files) (environment : Environment) (program : List Char)
    (searchPath : Option (List Char)) : Option (List Char) :=
  ((searchedDirectories searchPath).map (candidate files environment program)).find?
    files.isExecutable

/-- The place of a program, or the fallback if that can be executed. -/
def findExecutableIn (files : Files) (environment : Environment) (program : List Char)
    (searchPath fallback : Option (List Char)) : Option (List Char) :=
  match firstExecutable files environment program searchPath with
  | some found => some found
  | none => fallback.filter files.isExecutable

/-- The events of looking for a program. -/
def findExecutableEvents (files : Files) (environment : Environment) (program : List Char)
    (searchPath : Option (List Char)) : List Log.Event :=
  match firstExecutable files environment program searchPath with
  | some _ => [Log.foundProgram]
  | none => []

/-- What comes of looking for a program that may be required. -/
inductive ExecutableSearch
  /-- The caller goes on with a path, or without one. -/
  | answer (path : Option (List Char))
  /-- The caller ends, with a status and a diagnostic. -/
  | ended (status : Nat) (diagnostic : String)
deriving DecidableEq, Repr, Inhabited

/-- The diagnostic for a program that is missing. -/
def missingDiagnostic (program : List Char) : String :=
  "ERROR: Could not find '" ++ String.ofList program ++ "' executable\n"

/-- Look for a program on the search path of the environment.  Where it is missing, a required
one ends the caller, and for any other the fallback is the answer as it is. -/
def findExecutable (files : Files) (environment : Environment) (program : List Char)
    (fallback : Option (List Char)) (required : Bool) : ExecutableSearch :=
  match findExecutableIn files environment program environment.searchPath fallback with
  | some found => .answer (some found)
  | none => if required then .ended 1 (missingDiagnostic program) else .answer fallback

end Workbench
