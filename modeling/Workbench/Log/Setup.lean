/-
Setting up the log.

The filter comes from the environment; where the environment has none, or one that cannot be
read, a default holds.  The log can be set up once.
-/
import Workbench.Environment
import Workbench.Failure
import Workbench.Log.Filter

namespace Workbench.Log

/-- The filter that holds when nobody asks for another. -/
def standardFilter : List Char := "info".toList

/-- The filter of an environment, or the default. -/
def filterFor (environment : Environment) (default : List Char) : List Directive :=
  match (environment.get? "RUST_LOG".toList).bind readFilter with
  | some directives => directives
  | none => readFilterLossy default

/-- How events are written. -/
inductive Format
  | json
  | compact
  | pretty
deriving DecidableEq, Repr, Inhabited

/-- The format that an environment asks for. -/
def formatFor (environment : Environment) : Format :=
  match (environment.get? "RUST_LOG_FORMAT".toList).map String.ofList with
  | some "json" => .json
  | some "compact" => .compact
  | _ => .pretty

/-- What writes the log: the filter and the format, once it has been set up. -/
structure Logger where
  setting : Option (List Directive × Format)
deriving Repr, Inhabited

/-- A logger that has not been set up. -/
def Logger.unset : Logger := ⟨none⟩

/-- Set up the logger, which fails the second time. -/
def Logger.setUp (logger : Logger) (environment : Environment) (default : List Char) :
    Except Failure Unit × Logger :=
  match logger.setting with
  | some _ =>
      (.error (.other ("Failed to initialize tracing: " ++
        "a global default trace dispatcher has already been set")), logger)
  | none => (.ok (), ⟨some (filterFor environment default, formatFor environment)⟩)

/-- The events that are logged. -/
def Logger.logged (logger : Logger) (events : List Event) : List Event :=
  match logger.setting with
  | some (directives, _) => events.filter (enabled directives)
  | none => []

/-- Events are written as records that can be read back. -/
def Logger.isStructured (logger : Logger) : Bool :=
  logger.setting.any fun setting => setting.2 == .json

end Workbench.Log
