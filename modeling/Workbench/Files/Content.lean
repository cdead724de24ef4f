/-
Reading files, and appending one to another.

Appending opens the source, then opens the target or creates it, and copies last.  A source
that turns out to be a directory is noticed only when it is read, when the target has been
created already.  What is copied is the content that the source has when it is opened, so this
is about copies from one file to another, not of a file to its own end.
-/
import Workbench.Files.Locate
import Workbench.Text.Code

namespace Workbench.Files

/-- The content behind a node; directories have none. -/
def contentOf : Node → Except FileFault (List UInt8)
  | .file content _ => .ok content
  | _ => .error .isDirectory

/-- Open what a path leads to, to read it. -/
def openToRead (files : Files) (path : List Char) : Except FileFault Node := do
  let node ← files.find .follow path
  if node.isReadable then .ok node else .error .denied

/-- The content of a file. -/
def read (files : Files) (path : List Char) : Except FileFault (List UInt8) := do
  contentOf (← files.openToRead path)

/-- Whether a file is code. -/
def isCode (files : Files) (path : List Char) : Except FileFault Bool := do
  (Text.isCode (← files.read path)).mapError fun _ => .notText

/-- The permission bits of a new file. -/
def newFileMode : Nat := 0o644

/-- Open a file to append to it: its place and the files, among which it exists from now on. -/
def openToAppend (files : Files) (path : List Char) : Except FileFault (Place × Files) := do
  let place ← files.locate .create path
  match files.get? place with
  | some (.directory _ _) => .error .isDirectory
  | some node => if node.isWritable then .ok (place, files) else .error .denied
  | none => .ok (place, files.put place (.file [] newFileMode))

/-- Put bytes behind the content of the file at a place. -/
def extendFile (files : Files) (place : Place) (bytes : List UInt8) : Files :=
  match files.get? place with
  | some (.file content mode) => files.put place (.file (content ++ bytes) mode)
  | _ => files

/-- Append the content of one file to another.  Returns the files afterwards and what went
wrong, if something did. -/
def append (files : Files) (source target : List Char) : Files × Except FileFault Unit :=
  match files.openToRead source with
  | .error fault => (files, .error fault)
  | .ok node =>
      match files.openToAppend target with
      | .error fault => (files, .error fault)
      | .ok (place, opened) =>
          match contentOf node with
          | .error fault => (opened, .error fault)
          | .ok content => (opened.extendFile place content, .ok ())

end Workbench.Files
