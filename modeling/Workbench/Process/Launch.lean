/-
Executing files.

A path is executed if it leads to a regular file that may be executed.  A file that begins with
a hash sign and an exclamation mark is a script: the rest of its first line names an interpreter,
which is executed instead, with the path of the script before the other arguments.  The
interpreter may be a script again.  Any other file has to be a program of the machine.

Of a script only a window of bytes is looked at, which is filled up with zeros where the file
is shorter.  Zeros end words like blanks do.
-/
import Workbench.Files.Locate
import Workbench.Text.Utf8

namespace Workbench

/-- A program that is about to run, and its arguments. -/
structure Launch where
  place : Place
  arguments : List (List Char)
deriving DecidableEq, Repr, Inhabited

/-- Why a file is not executed. -/
inductive LaunchFault
  /-- There is nothing that may be executed. -/
  | missing
  /-- The file is neither a program nor a script with an interpreter. -/
  | format
  /-- The path cannot be followed. -/
  | stuck
deriving DecidableEq, Repr, Inhabited

/-! ### The first line of a script -/

/-- How many bytes of a file are looked at. -/
def windowSize : Nat := 256

/-- The first bytes of a file. -/
def windowOf (content : List UInt8) : List UInt8 :=
  content.take windowSize ++ List.replicate (windowSize - content.length) 0

/-- A space or a tab. -/
def isLineGap (b : UInt8) : Bool :=
  b == 32 || b == 9

/-- A byte that ends a word. -/
def endsWord (b : UInt8) : Bool :=
  isLineGap b || b == 0

/-- A file begins with a hash sign and an exclamation mark. -/
def isScript : List UInt8 → Bool
  | 35 :: 33 :: _ => true
  | _ => false

/-- What follows the two marks, up to the end of the line.  Where the line does not end within
the window, the name of the interpreter has to. -/
def interpreterLine (content : List UInt8) : Option (List UInt8) :=
  let body := (windowOf content).drop 2
  if body.contains 10 then some (body.takeWhile (· != 10))
  else if (body.dropWhile isLineGap).any endsWord then some body.dropLast
  else none

/-- The bytes of a word, as the text they spell. -/
def wordText (bytes : List UInt8) : List Char :=
  (Utf8.decodeLossy (bytes.takeWhile (· != 0))).toList

/-- The interpreter of a script and the argument that stands behind it on the line, if there is
one. -/
def interpreterOf (content : List UInt8) : Option (List Char × Option (List Char)) := do
  let line ← interpreterLine content
  let words := ((line.reverse.dropWhile isLineGap).reverse).dropWhile isLineGap
  if words = [] then none
  else
    let argument := match words.dropWhile fun b => !endsWord b with
      | [] => none
      | b :: rest => if b == 0 then none else some (wordText (rest.dropWhile isLineGap))
    pure (wordText (words.takeWhile fun b => !endsWord b), argument)

/-! ### Executing -/

namespace Files

/-- The file that is executed under a path: its place and its content. -/
def runnable (files : Files) (path : List Char) :
    Except LaunchFault (Place × List UInt8) :=
  match files.locate .follow path with
  | .ok place =>
      match files.get? place with
      | some (.file content mode) =>
          if (Node.file content mode).isRunnable then .ok (place, content) else .error .missing
      | _ => .error .missing
  | .error .notFound => .error .missing
  | .error .notDirectory => .error .missing
  | .error _ => .error .stuck

/-- How many files are executed instead of each other at most. -/
def launchLimit : Nat := 6

/-- Execute a path, where `isProgram` tells the programs. -/
def launchWithin (files : Files) (isProgram : Place → Bool) :
    Nat → List Char → List (List Char) → Except LaunchFault Launch
  | 0, _, _ => .error .stuck
  | limit + 1, path, arguments => do
      let (place, content) ← files.runnable path
      if isScript content then
        match interpreterOf content with
        | some (interpreter, argument) =>
            files.launchWithin isProgram limit interpreter (argument.toList ++ path :: arguments)
        | none => .error .format
      else if isProgram place then .ok ⟨place, arguments⟩
      else .error .format

/-- Execute a path. -/
def launch (files : Files) (isProgram : Place → Bool) (path : List Char)
    (arguments : List (List Char)) : Except LaunchFault Launch :=
  files.launchWithin isProgram launchLimit path arguments

end Files

end Workbench
