/-
Putting files into a tree.

Directories on the way to a new file are made as needed.  A file or a directory is put where the
path leads to, a link where the path says.
-/
import Workbench.Files.Locate

namespace Workbench.Files

/-- An empty directory under a path, unless something is there. -/
def makeDirectory (files : Files) (path : List Char) : Files :=
  match files.locate .follow path with
  | .error _ => files
  | .ok place =>
      match files.get? place with
      | some _ => files
      | none => files.put place (.directory true [])

/-- Directories under a path and under everything it begins with. -/
def makeDirectories (files : Files) (path : List Char) : Files :=
  let components := Path.components path
  (List.range components.length).foldl
    (fun files n => files.makeDirectory (Path.ofComponents (components.take (n + 1)))) files

/-- The files with a node under a path.  A directory does not replace what is there. -/
def install (files : Files) (path : List Char) (node : Node) : Files :=
  let prepared := files.makeDirectories (Path.ofComponents (Path.components path).dropLast)
  match node with
  | .directory _ _ => prepared.makeDirectory path
  | .link _ =>
      match prepared.locate .stay path with
      | .ok place => prepared.put place node
      | .error _ => prepared
  | .file _ _ =>
      match prepared.locate .follow path with
      | .ok place => prepared.put place node
      | .error _ => prepared

/-- Make the directory that a path leads to the current one. -/
def enter (files : Files) (path : List Char) : Files :=
  match files.locate .follow path with
  | .ok place => { files with here := place }
  | .error _ => files

end Workbench.Files
