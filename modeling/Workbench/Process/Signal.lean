/-
Signals to groups of processes.

A group is named by the number of the process that leads it.  A signal to a group that no
longer exists counts as delivered, because its processes have ended before the signal could
end them.
-/
import Workbench.Failure

namespace Workbench

/-- The signals that end a program. -/
inductive Signal
  | terminate
  | kill
  | interrupt
  | hangup
deriving DecidableEq, Repr, Inhabited

namespace Signal

/-- The signal that is sent when none is named. -/
def standard : Signal := .terminate

/-- The name of a signal. -/
def label : Signal → String
  | .terminate => "SIGTERM"
  | .kill => "SIGKILL"
  | .interrupt => "SIGINT"
  | .hangup => "SIGHUP"

/-- The number of a signal. -/
def number : Signal → Nat
  | .terminate => 15
  | .kill => 9
  | .interrupt => 2
  | .hangup => 1

end Signal

/-- What the system answers to a signal for a group. -/
inductive GroupAnswer
  /-- The signal has reached processes of the group. -/
  | reached
  /-- There is no such group. -/
  | noGroup
  /-- The signal is not sent. -/
  | refused (reason : String)
deriving DecidableEq, Repr, Inhabited

/-- The greatest number that a process can have. -/
def greatestProcess : Nat := Int32.maxValue.toInt.toNat

/-- Send a signal to the group of a process, which the system answers; the error is a text. -/
def deliverTo (answer : GroupAnswer) (signal : Signal) (process : Nat) : Except String Unit :=
  if process ≤ greatestProcess then
    match answer with
    | .reached => .ok ()
    | .noGroup => .ok ()
    | .refused reason =>
        .error s!"Failed to send {signal.label} to process group {process}: {reason}"
  else
    .error s!"Process id {process} does not fit a pid_t: number too large to fit in target type"

/-- Send a signal to the group of a process that has ended. -/
def deliver (signal : Signal) (process : Nat) : Except String Unit :=
  deliverTo .noGroup signal process

/-- Send a signal to the group of a process, which the system answers. -/
def killGroupTo (answer : GroupAnswer) (process : Nat) (signal : Signal) : Except Failure Unit :=
  (deliverTo answer signal process).mapError .signal

/-- Send a signal to the group of a process that has ended. -/
def killGroup (process : Nat) (signal : Signal) : Except Failure Unit :=
  killGroupTo .noGroup process signal

end Workbench
