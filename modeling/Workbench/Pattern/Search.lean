/-
The files that a pattern stands for.

Parts are matched from the left.  A part without wildcards is put behind the path found so far,
and only has to exist; any other part is compared with the entries of the directory, in the
order of their names.  A part for any depth is compared with a directory and everything below
it: the rest of the pattern is tried on the directory's own name first and below it after that.

The two entries that every directory has, for itself and for its parent, are found only by a
part that begins with a dot; they come before the others.  A directory whose names may not be listed
is passed over: nothing is compared with its entries, not even with these two.

A path is shorter than `pathLimit`, so the depth of the search is bounded.
-/
import Workbench.Files.Content
import Workbench.Path.Normal
import Workbench.Pattern.Basic
import Workbench.Variables

namespace Workbench.Pattern

open Workbench.Path (Name)

/-- The order of names: character by character, a beginning before the whole. -/
def nameBefore (a b : Name) : Bool :=
  !List.lex b a (· < ·)

/-- The names in a directory, in ascending order, if they may be listed. -/
def entryNames (files : Files) (path : List Char) : List Name :=
  match files.find .follow path with
  | .ok (.directory true entries) => (entries.map Prod.fst).mergeSort nameBefore
  | _ => []

/-- An entry exists under a path, be it a link to nowhere. -/
def entryExists (files : Files) (path : List Char) : Bool :=
  files.exists? path || (files.find .stay path).toOption.isSome

/-- The path is the current directory, which is not written before a name. -/
def isHere (path : List Char) : Bool :=
  Path.components path == [.current]

/-- The path of an entry. -/
def below (path : List Char) (name : Name) : List Char :=
  if isHere path then name else Path.join path name

/-- The entries for the directory itself and its parent that the tokens find. -/
def dotEntries (tokens : List Token) : List Name :=
  if tokens.head? = some (.char '.') then
    [['.', '.'], ['.']].filter (matchesName tokens)
  else []

/-- The parts after the parts for any depth that they begin with. -/
def afterDepths : List Part → List Part
  | .depths :: parts => afterDepths parts
  | parts => parts

/-- What is searched: the files, and whether only directories count. -/
structure Search where
  files : Files
  directoriesOnly : Bool

namespace Search

/-- A path that has been found. -/
def found (search : Search) (path : List Char) : List (List Char) :=
  if search.directoriesOnly && !search.files.isDirectory path then [] else [path]

mutual

/-- The paths below `path` that the parts find. -/
def inside (search : Search) (parts : List Part) (path : List Char) : Nat → List (List Char)
  | 0 => []
  | fuel + 1 =>
      match parts with
      | [] => search.found path
      | .depths :: _ =>
          if search.files.isListable path then
            (entryNames search.files path).flatMap fun name =>
              search.visit parts name (below path name) fuel
          else []
      | .name tokens :: rest =>
          match literal? tokens with
          | some name =>
              let next := below path name
              let there :=
                if name = ['.'] ∨ name = ['.', '.'] then search.files.isDirectory path
                else entryExists search.files next
              if there then search.inside rest next fuel else []
          | none =>
              if search.files.isListable path then
                ((dotEntries tokens).flatMap fun name =>
                  search.inside rest (Path.join path name) fuel) ++
                (entryNames search.files path).flatMap fun name =>
                  search.visit parts name (below path name) fuel
              else []

/-- The paths at and below an entry that the parts find. -/
def visit (search : Search) (parts : List Part) (name : Name) (path : List Char) :
    Nat → List (List Char)
  | 0 => []
  | fuel + 1 =>
      match parts with
      | [] => []
      | .name tokens :: rest =>
          if matchesName tokens name then search.inside rest path fuel else []
      | .depths :: _ =>
          match afterDepths parts with
          | [] =>
              if search.files.isDirectory path then path :: search.inside [.depths] path fuel
              else []
          | more =>
              search.visit more name path fuel ++
                if search.files.isDirectory path then search.inside (.depths :: more) path fuel
                else []

end

end Search

/-- The paths that a text stands for, without its variables. -/
def matchingPaths (files : Files) (text : List Char) : List (List Char) :=
  let start := if Path.isAbsolute text then ['/'] else ['.']
  let rest := if Path.isAbsolute text then text.drop 1 else text
  match partsOf rest with
  | none => []
  | some parts =>
      let search : Search := ⟨files, text.getLast? = some '/'⟩
      search.inside parts start (2 * (parts.length + pathLimit))

/-- The files that a pattern stands for: it is put behind the base, brought into normal form,
its references are replaced, and its wildcards are matched. -/
def expand (files : Files) (environment : Environment) (pattern base : List Char) :
    List (List Char) :=
  matchingPaths files (expandReferences environment (Path.normalize (Path.join base pattern)))

end Workbench.Pattern
