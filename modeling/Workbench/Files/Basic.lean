/-
A tree of files.

A node is a file with its content and its permission bits, a symbolic link with the text it
points to, or a directory, which may be closed to whoever asks for its names.  Every directory may
be gone through and written into: of what is done with one, only listing it can be refused.  A place
in the tree is the list of names that leads to it from the root, so it goes through directories only
and never through a link.
-/
import Workbench.Path.Basic

namespace Workbench

open Workbench.Path (Name)

/-- A file, a link, or a directory with everything below it. -/
inductive Node
  | file (content : List UInt8) (mode : Nat)
  | link (target : List Char)
  | directory (listable : Bool) (entries : List (Name × Node))
deriving Repr, Inhabited

/-- The names that lead from the root to a place, the outermost first. -/
abbrev Place := List Name

namespace Node

/-- The node at a place. -/
def get? : Node → Place → Option Node
  | node, [] => some node
  | .directory _ entries, name :: rest =>
      match entries.lookup name with
      | some node => node.get? rest
      | none => none
  | _, _ :: _ => none

/-- The entries with one of them replaced, or added as the last. -/
def putEntry (entries : List (Name × Node)) (name : Name) (node : Node) : List (Name × Node) :=
  match entries with
  | [] => [(name, node)]
  | entry :: rest =>
      if entry.1 = name then (name, node) :: rest else entry :: putEntry rest name node

/-- The tree with another node at a place, which may be new in its directory.  Where no
directory leads to the place, nothing changes. -/
def put (new : Node) : Node → Place → Node
  | _, [] => new
  | .directory listable entries, name :: rest =>
      match entries.lookup name, rest with
      | some node, _ => .directory listable (putEntry entries name (put new node rest))
      | none, [] => .directory listable (putEntry entries name new)
      | none, _ :: _ => .directory listable entries
  | node, _ :: _ => node

/-! ### Permissions

Everything runs as the owner of all files and without privileges beyond that, so of the
permission bits those of the owner count.  Every directory may be searched and written: a name that
is known leads into it, and entries can be added.  Only the list of the names in a directory may be
denied. -/

/-- What is not a regular file may be read, and a regular file with the bit for it. -/
def isReadable : Node → Bool
  | .file _ mode => mode &&& 0o400 != 0
  | _ => true

/-- A regular file that may be written. -/
def isWritable : Node → Bool
  | .file _ mode => mode &&& 0o200 != 0
  | _ => false

/-- A regular file that may be executed. -/
def isRunnable : Node → Bool
  | .file _ mode => mode &&& 0o100 != 0
  | _ => false

end Node

/-- A tree of files and the directory that relative paths begin at. -/
structure Files where
  root : Node
  here : Place
deriving Repr, Inhabited

/-- The text of a place. -/
def placeText (place : Place) : List Char :=
  match place with
  | [] => ['/']
  | _ => place.flatMap fun name => '/' :: name

namespace Files

/-- The node at a place. -/
def get? (files : Files) (place : Place) : Option Node :=
  files.root.get? place

/-- The files with another node at a place. -/
def put (files : Files) (place : Place) (node : Node) : Files :=
  { files with root := Node.put node files.root place }

end Files

/-- Why a file cannot be reached or used. -/
inductive FileFault
  | notFound
  | denied
  | notDirectory
  | isDirectory
  | nameTooLong
  | tooManyLinks
  /-- A path with a zero character. -/
  | zeroInPath
  /-- Content that should be text and is not. -/
  | notText
deriving DecidableEq, Repr, Inhabited

/-- The wording of a fault. -/
def FileFault.message : FileFault → String
  | .notFound => "No such file or directory (os error 2)"
  | .denied => "Permission denied (os error 13)"
  | .notDirectory => "Not a directory (os error 20)"
  | .isDirectory => "Is a directory (os error 21)"
  | .nameTooLong => "File name too long (os error 36)"
  | .tooManyLinks => "Too many levels of symbolic links (os error 40)"
  | .zeroInPath => "file name contained an unexpected NUL byte"
  | .notText => "stream did not contain valid UTF-8"

end Workbench
