/-
Events that the library reports while it works.
-/

namespace Workbench.Log

/-- How important an event is; the most important level comes first. -/
inductive Level
  | error
  | warn
  | info
  | debug
  | trace
deriving DecidableEq, Repr, Inhabited

/-- The levels in order, counted from one. -/
def Level.rank : Level → Nat
  | .error => 1
  | .warn => 2
  | .info => 3
  | .debug => 4
  | .trace => 5

/-- The written name of a level. -/
def Level.label : Level → String
  | .error => "ERROR"
  | .warn => "WARN"
  | .info => "INFO"
  | .debug => "DEBUG"
  | .trace => "TRACE"

/-- An event: its level, the part of the library that reports it, what is reported, and the
names of the details that come with it. -/
structure Event where
  level : Level
  target : String
  message : String
  fields : List String
deriving DecidableEq, Repr, Inhabited

/-- A program is about to be started. -/
def startingProgram : Event :=
  ⟨.debug, "bench_core::process", "starting child process",
    ["message", "command", "group_leader"]⟩

/-- A program has been found in a directory of the search path. -/
def foundProgram : Event :=
  ⟨.debug, "bench_core::executable", "found executable on search path",
    ["message", "program", "path"]⟩

/-- An energy helper cannot be started. -/
def helperNotStarted : Event :=
  ⟨.warn, "bench_util::energy", "error while reading energy", ["message", "helper", "error"]⟩

/-- An energy helper reports failure. -/
def helperFailed : Event :=
  ⟨.warn, "bench_util::energy", "error while reading energy",
    ["message", "out", "err", "retval"]⟩

/-- An energy helper prints something that is no number. -/
def helperUnreadable : Event :=
  ⟨.debug, "bench_util::energy", "energy helper output is not a number",
    ["message", "domain", "output"]⟩

end Workbench.Log
