/-
Committing result files to the repository that they are in.

An attempt asks for the root of the repository, makes sure that no tracked file has changed,
stages the files and commits them, in this order.  It ends at the first step that goes wrong,
so nothing is ever staged beside changes of someone else.  An attempt is told what its commands
leave by a function, so it can be followed for every way in which the commands can end.
-/
import Workbench.Files.Physical
import Workbench.Process.Command
import Workbench.Text.Line

namespace Workbench.Commit

/-- The step that has ended an attempt. -/
inductive Outcome
  | committed
  | notADirectory
  | notARepository
  | statusFailed
  | localChanges
  | addFailed
  | commitFailed
deriving DecidableEq, Repr, Inhabited

/-- All outcomes. -/
def Outcome.all : List Outcome :=
  [.committed, .notADirectory, .notARepository, .statusFailed, .localChanges, .addFailed,
    .commitFailed]

/-- The name of an outcome. -/
def Outcome.label : Outcome → String
  | .committed => "committed"
  | .notADirectory => "not_a_directory"
  | .notARepository => "not_a_repository"
  | .statusFailed => "status_failed"
  | .localChanges => "local_changes"
  | .addFailed => "add_failed"
  | .commitFailed => "commit_failed"

/-- The outcome with a name. -/
def Outcome.ofLabel? (label : String) : Option Outcome :=
  Outcome.all.find? fun outcome => outcome.label == label

/-- What an attempt comes to: how it ended, what it printed, and its commands in order, each
with what it left; nothing, if it could not be started. -/
structure Report where
  outcome : Outcome
  printed : String
  calls : List (Command × Option Output)
deriving DecidableEq, Repr

/-- The end of an attempt, with a line that says why. -/
def Report.ending (outcome : Outcome) (line : String) : Report :=
  ⟨outcome, line ++ "\n", []⟩

/-- A report with a command before everything else. -/
def Report.after (call : Command × Option Output) (report : Report) : Report :=
  { report with calls := call :: report.calls }

/-- A report with a line before everything else. -/
def Report.afterLine (line : String) (report : Report) : Report :=
  { report with printed := line ++ "\n" ++ report.printed }

/-! ### The commands -/

/-- A command of the version control program, run in a directory. -/
def gitCommand (directory : List Char) (arguments : List (List Char)) (input : List UInt8)
    (captured : Bool) : Command :=
  ⟨.named "git".toList, arguments, some directory, input, captured⟩

/-- Ask for the root of the repository that a directory is in. -/
def rootCommand (base : List Char) : Command :=
  gitCommand base ["rev-parse".toList, "--show-toplevel".toList] [] true

/-- Ask for changes of tracked files. -/
def statusCommand (root : List Char) : Command :=
  gitCommand root ["status".toList, "--porcelain".toList, "--untracked-files=no".toList] [] true

/-- Stage files; whatever their names begin with, they are no options. -/
def addCommand (root : List Char) (paths : List (List Char)) : Command :=
  gitCommand root ("add".toList :: "--".toList :: paths) [] false

/-- Commit what is staged, with a description that is read as input. -/
def commitCommand (root : List Char) (description : String) : Command :=
  gitCommand root ["commit".toList, "--file=-".toList, "--quiet".toList]
    (Utf8.encode description) false

/-! ### The steps -/

/-- A command that could be started has succeeded. -/
def succeeded (reply : Option Output) : Bool :=
  reply.any Output.success

/-- The root that a repository reports: the first line, unless it is empty. -/
def rootOf (reply : Option Output) : Option (List Char) := do
  let output ← reply.filter Output.success
  let line ← (Text.lines output.stdoutText.toList).head?
  if line = [] then none else some line

/-- What is printed when the changes cannot be listed. -/
def statusLine (detail : String) : String :=
  "Git status failed! Output was:\n" ++ detail

/-- Commit. -/
def commitStep (run : Command → Option Output) (root : List Char) (description : String) :
    Report :=
  let command := commitCommand root description
  let reply := run command
  (if succeeded reply then ⟨.committed, "", []⟩
    else Report.ending .commitFailed "Git commit failed!").after (command, reply)

/-- Stage, and go on to commit. -/
def addStep (run : Command → Option Output) (root : List Char) (paths : List (List Char))
    (description : String) : Report :=
  let command := addCommand root paths
  let reply := run command
  (if succeeded reply then
      (commitStep run root description).afterLine
        ("Committing results files to git repository in " ++ String.ofList root)
    else Report.ending .addFailed "Git add failed, will not commit results!").after
    (command, reply)

/-- Look for changes, and go on to stage. -/
def statusStep (run : Command → Option Output) (root : List Char) (paths : List (List Char))
    (description : String) : Report :=
  let command := statusCommand root
  let reply := run command
  (match reply with
    | none => Report.ending .statusFailed (statusLine startFailure.message)
    | some output =>
        if !output.success then Report.ending .statusFailed (statusLine output.stderrText)
        else if output.stdout ≠ [] then
          Report.ending .localChanges "Git repository has local changes, not committing results."
        else addStep run root paths description).after (command, reply)

/-- Find the repository, and go on to look for changes. -/
def rootStep (run : Command → Option Output) (base : List Char) (paths : List (List Char))
    (description : String) : Report :=
  let command := rootCommand base
  let reply := run command
  (match rootOf reply with
    | none =>
        Report.ending .notARepository
          ("Cannot commit results to repository: git rev-parse failed, " ++
            "perhaps output path is not a git directory?")
    | some root => statusStep run root paths description).after (command, reply)

/-- The path under which a file is staged. -/
def stagedPath (files : Files) (path : List Char) : List Char :=
  (files.realpath path).toOption.getD path

/-- Try to commit files to the repository that a directory is in. -/
def attempt (files : Files) (run : Command → Option Output) (base : List Char)
    (paths : List (List Char)) (description : String) : Report :=
  if files.isDirectory base then rootStep run base (paths.map (stagedPath files)) description
  else
    Report.ending .notADirectory
      "Output path is not a directory, cannot add files to git repository."

end Workbench.Commit
