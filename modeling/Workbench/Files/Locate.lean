/-
The place that a path leads to.

A path is followed name by name from the root or from the current directory.  Everything that
is not the last name has to be a directory or a link to one; a link is followed by going on
with its target instead of it.  At most forty links are followed, so cycles of links end too.

A slash at the end of a path asks for a directory, like a dot behind it.  It is kept as an
empty last name, because a file is never created under a path that ends so.
-/
import Workbench.Files.Basic
import Workbench.Text.Utf8

namespace Workbench

open Workbench.Path (Name)

/-- What happens at the last name of a path. -/
inductive Last
  /-- A link is not followed. -/
  | stay
  /-- A link is followed. -/
  | follow
  /-- A link is followed, and a file may be created. -/
  | create
deriving DecidableEq, Repr, Inhabited

/-- The names of a path, with an empty one at the end if the path ends in a slash. -/
def pathNames (path : List Char) : List Name :=
  (Text.split '/' path).filter (· ≠ []) ++ if path.getLast? = some '/' then [[]] else []

/-- Where a path begins. -/
def startOf (here : Place) (path : List Char) : Place :=
  if Path.isAbsolute path then [] else here

/-- A name is at most 255 bytes long. -/
def longestName : Nat := 255

/-- A path is shorter than 4096 bytes. -/
def pathLimit : Nat := 4096

/-- At most forty links are followed. -/
def linkLimit : Nat := 40

/-- The place that `names` lead to from `place`, with at most `links` links followed.  The last
name need not exist. -/
def walk (root : Node) (last : Last) (links : Nat) (place : Place) (names : List Name) :
    Except FileFault Place :=
  match names with
  | [] => .ok place
  | name :: rest =>
      match root.get? place with
      | some (.directory _ entries) =>
          if name = [] ∨ name = ['.'] then walk root last links place rest
          else if name = ['.', '.'] then walk root last links place.dropLast rest
          else if last = .create ∧ rest = [[]] then .error .isDirectory
          else if longestName < Utf8.byteSize name then .error .nameTooLong
          else
            match entries.lookup name with
            | none => if rest = [] then .ok (place ++ [name]) else .error .notFound
            | some (.link target) =>
                if rest = [] ∧ last = .stay then .ok (place ++ [name])
                else
                  match links with
                  | 0 => .error .tooManyLinks
                  | links + 1 =>
                      walk root last links (startOf place target) (pathNames target ++ rest)
            | some _ => walk root last links (place ++ [name]) rest
      | some _ => .error .notDirectory
      | none => .error .notFound
termination_by (links, names.length)

namespace Files

/-- The place that a path leads to, without regard to the length of the whole path. -/
def locateAny (files : Files) (last : Last) (path : List Char) : Except FileFault Place :=
  if path.contains '\x00' then .error .zeroInPath
  else if path = [] then .error .notFound
  else walk files.root last linkLimit (startOf files.here path) (pathNames path)

/-- The place that a path leads to. -/
def locate (files : Files) (last : Last) (path : List Char) : Except FileFault Place :=
  if path.contains '\x00' then .error .zeroInPath
  else if pathLimit ≤ Utf8.byteSize path then .error .nameTooLong
  else files.locateAny last path

/-- The node that a path leads to. -/
def find (files : Files) (last : Last) (path : List Char) : Except FileFault Node := do
  let place ← files.locate last path
  match files.get? place with
  | some node => .ok node
  | none => .error .notFound

/-- Something exists under a path, links followed. -/
def exists? (files : Files) (path : List Char) : Bool :=
  (files.find .follow path).toOption.isSome

/-- A path leads to a directory. -/
def isDirectory (files : Files) (path : List Char) : Bool :=
  match files.find .follow path with
  | .ok (.directory _ _) => true
  | _ => false

/-- A path leads to a directory whose names may be listed. -/
def isListable (files : Files) (path : List Char) : Bool :=
  match files.find .follow path with
  | .ok (.directory listable _) => listable
  | _ => false

/-- A path leads to a regular file that may be executed. -/
def isExecutable (files : Files) (path : List Char) : Bool :=
  match files.find .follow path with
  | .ok node => node.isRunnable
  | .error _ => false

end Files

end Workbench
