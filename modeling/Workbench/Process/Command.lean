/-
Commands, and the machine that they run on.

A machine is what a command can see: the files, the environment, and what the programs and the
scripts among the files do.  To start a command, its working directory is entered and its
program is looked for from there.  A program with a slash in its name is a path, and has to be
executable itself.  Any other is looked for on the search path: directories without it are passed
over, and a file that may be executed but is no program is run by the shell.
-/
import Workbench.Environment
import Workbench.Executable
import Workbench.Process.Launch
import Workbench.Process.Output
import Workbench.Failure

namespace Workbench

/-- Which program a command asks for. -/
inductive Program
  /-- A name for the search path, or a path if it has a slash in it. -/
  | named (name : List Char)
  /-- A path, even without a slash. -/
  | atPath (path : List Char)
deriving DecidableEq, Repr, Inhabited

/-- A command. -/
structure Command where
  program : Program
  arguments : List (List Char)
  /-- The working directory, if it is not the current one. -/
  directory : Option (List Char)
  /-- What the program can read. -/
  input : List UInt8
  /-- What the program prints is kept. -/
  captured : Bool
deriving DecidableEq, Repr, Inhabited

/-- What a program does with its arguments and its input. -/
abbrev Script := List (List Char) → List UInt8 → Output

/-- A program that does nothing and succeeds. -/
def silentScript : Script := fun _ _ => ⟨.exit 0, [], []⟩

/-- The files, the environment, and what is known of programs. -/
structure Machine where
  files : Files
  environment : Environment
  /-- What programs do; the shell is one more. -/
  programs : List (Place × Script)
  /-- What scripts do when the shell runs them; a script that is not known does nothing. -/
  scripts : List (Place × Script)

/-- The path of the shell. -/
def shellPath : List Char := "/bin/sh".toList

/-- The place of the shell. -/
def shellPlace : Place := ["bin".toList, "sh".toList]

/-- The search path for commands where the environment has none. -/
def defaultSearchPath : List Char := "/bin:/usr/bin".toList

namespace Machine

/-! ### Starting -/

/-- The file at a place is a program. -/
def isProgram (machine : Machine) (place : Place) : Bool :=
  place == shellPlace || (machine.programs.lookup place).isSome

/-- Execute a path, seen from a working directory. -/
def launch (machine : Machine) (files : Files) (path : List Char)
    (arguments : List (List Char)) : Except LaunchFault Launch :=
  files.launch machine.isProgram path arguments

/-- Execute a name in the first directory that has it.  A file that is no program is left to
the shell. -/
def launchFrom (machine : Machine) (files : Files) (name : List Char)
    (arguments : List (List Char)) : List (List Char) → Option Launch
  | [] => none
  | directory :: rest =>
      let path := Path.join directory name
      match machine.launch files path arguments with
      | .ok launch => some launch
      | .error .missing => machine.launchFrom files name arguments rest
      | .error .format => (machine.launch files shellPath (path :: arguments)).toOption
      | .error .stuck => none

/-- Execute what a program stands for. -/
def launchProgram (machine : Machine) (files : Files) (program : Program)
    (arguments : List (List Char)) : Option Launch :=
  match program with
  | .atPath path => (machine.launch files path arguments).toOption
  | .named name =>
      if name = [] then none
      else if name.contains '/' then (machine.launch files name arguments).toOption
      else
        machine.launchFrom files name arguments
          (Path.searchList (machine.environment.searchPath.getD defaultSearchPath))

/-- The files as a command sees them from its working directory. -/
def enter (machine : Machine) (directory : Option (List Char)) : Option Files :=
  match directory with
  | none => some machine.files
  | some path =>
      match machine.files.locate .follow path with
      | .error _ => none
      | .ok place =>
          match machine.files.get? place with
          | some (.directory _ _) => some { machine.files with here := place }
          | _ => none

/-! ### What runs -/

/-- What a command that has been started comes down to. -/
inductive Running
  /-- A program other than the shell. -/
  | program (place : Place) (arguments : List (List Char))
  /-- The shell, with a script. -/
  | script (place : Place) (arguments : List (List Char))
  /-- The shell, with a script that it may not read. -/
  | unreadable (path : List Char)
  /-- The shell, with nothing to run. -/
  | idle
deriving DecidableEq, Repr, Inhabited

/-- An option of the shell. -/
def isShellOption (argument : List Char) : Bool :=
  argument.head? == some '-'

/-- What the shell does with its arguments: after its options comes the path of a script. -/
def shellRuns (files : Files) (arguments : List (List Char)) : Running :=
  match arguments.dropWhile isShellOption with
  | [] => .idle
  | path :: rest =>
      match files.locate .follow path with
      | .ok place =>
          if (files.get? place).any Node.isReadable then .script place rest else .unreadable path
      | .error _ => .unreadable path

/-- What a command comes down to; `none` if it cannot be started. -/
def start (machine : Machine) (command : Command) : Option Running :=
  if command.arguments.any fun argument => argument.contains '\x00' then none
  else do
    let files ← machine.enter command.directory
    let launch ← machine.launchProgram files command.program command.arguments
    pure (if launch.place = shellPlace then shellRuns files launch.arguments
      else .program launch.place launch.arguments)

/-- What a script or a program does that is known. -/
def known (scripts : List (Place × Script)) (place : Place) : Script :=
  (scripts.lookup place).getD silentScript

/-- What is left by what runs. -/
def outputOf (machine : Machine) (input : List UInt8) : Running → Output
  | .program place arguments => known machine.programs place arguments input
  | .script place arguments => known machine.scripts place arguments input
  | .unreadable path =>
      ⟨.exit 2, [], Utf8.encode
        ("/bin/sh: 0: cannot open " ++ String.ofList path ++ ": Permission denied\n")⟩
  | .idle => ⟨.exit 0, [], []⟩

/-- Run a command; `none` if it cannot be started. -/
def run? (machine : Machine) (command : Command) : Option Output := do
  let running ← machine.start command
  let output := machine.outputOf command.input running
  pure (if command.captured then output else output.uncaptured)

end Machine

/-- The failure to start a command. -/
def startFailure : Failure := .command "Failed to start"

/-- Run a command. -/
def Machine.run (machine : Machine) (command : Command) : Except Failure Output :=
  match machine.run? command with
  | some output => .ok output
  | none => .error startFailure

end Workbench
