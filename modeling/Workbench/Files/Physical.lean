/-
Absolute paths.

The physical path of a file has no links, dots or repeated slashes in it.  It is found name by name:
every name on the way is asked for by its physical path, and what is a link is gone on with instead.
Such a path can be too long to be asked for, although a shorter one leads to the file.

Where no physical path is found, the text of the path is put behind the current directory instead: a
dot at the beginning is dropped, two dots stay, because what they would leave is unknown, and so
does a slash at the end.  Exactly two slashes at the beginning of a path stay two.
-/
import Workbench.Files.Locate
import Workbench.Failure

namespace Workbench

open Workbench.Path (Name)

/-- The names behind a name ask for a directory: they go out of it, or all of them are dots. -/
def asksDirectory : List Name → Bool
  | [] => false
  | name :: rest =>
      if name = ['.', '.'] then true
      else if name = [] ∨ name = ['.'] then rest.isEmpty || asksDirectory rest
      else false

namespace Files

/-- The place that `names` lead to from `place`, with every name asked for by its physical path and
at most `links` links followed. -/
def trace (files : Files) (links : Nat) (place : Place) (names : List Name) :
    Except FileFault Place :=
  match names with
  | [] => .ok place
  | name :: rest =>
      if name = [] ∨ name = ['.'] then files.trace links place rest
      else if name = ['.', '.'] then files.trace links place.dropLast rest
      else
        match files.find .stay (placeText (place ++ [name])) with
        | .error fault => .error fault
        | .ok (.link target) =>
            match links with
            | 0 => .error .tooManyLinks
            | links + 1 => files.trace links (startOf place target) (pathNames target ++ rest)
        | .ok _ =>
            if asksDirectory rest then
              match files.find .follow (placeText (place ++ [name]) ++ ['/']) with
              | .error fault => .error fault
              | .ok _ => files.trace links (place ++ [name]) rest
            else files.trace links (place ++ [name]) rest
termination_by (links, names.length)

/-- The physical path of the file that a path leads to. -/
def physical (files : Files) (path : List Char) : Except FileFault (List Char) :=
  if path.contains '\x00' then .error .zeroInPath
  else if path = [] then .error .notFound
  else do
    let place ← files.trace linkLimit (startOf files.here path) (pathNames path)
    .ok (placeText place)

/-- The beginning of an absolute path with its two slashes, or nothing. -/
def leadingSlashes : List Char → List Char
  | '/' :: '/' :: '/' :: _ => []
  | '/' :: '/' :: _ => ['/', '/']
  | _ => []

/-- The path behind the current directory, by its text. -/
def absolute (files : Files) (path : List Char) : List Char :=
  let components := Path.withoutCurrent (Path.components path)
  let whole :=
    if Path.isAbsolute path then
      let slashes := leadingSlashes path
      Path.extend slashes (if slashes = [] then components else components.drop 1)
    else Path.extend (placeText files.here) components
  if path.getLast? = some '/' then Path.join whole [] else whole

/-- The physical path if there is one, else the path behind the current directory; only the
empty path has neither. -/
def realpath (files : Files) (path : List Char) : Except Failure (List Char) :=
  match files.physical path with
  | .ok found => .ok found
  | .error _ =>
      if path = [] then .error (.other "Failed to get absolute path for \"\"")
      else .ok (files.absolute path)

end Files

end Workbench
