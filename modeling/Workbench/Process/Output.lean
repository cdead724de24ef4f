/-
What a program leaves behind when it has ended.
-/
import Workbench.Payload

namespace Workbench

/-- How a program has ended. -/
inductive Ending
  /-- By itself, with a status of eight bits. -/
  | exit (status : UInt8)
  /-- By a signal with this number. -/
  | signal (number : Nat)
deriving DecidableEq, Repr, Inhabited

/-- The end with a status, of which eight bits are kept. -/
def Ending.ofStatus (status : Nat) : Ending :=
  .exit (UInt8.ofNat status)

/-- How a program has ended, and what it has printed. -/
structure Output where
  ending : Ending
  stdout : List UInt8
  stderr : List UInt8
deriving DecidableEq, Repr, Inhabited

namespace Output

/-- A program succeeds by ending with status zero. -/
def success (output : Output) : Bool :=
  output.ending == .exit 0

/-- The status of a program that has ended by itself. -/
def code (output : Output) : Option Nat :=
  match output.ending with
  | .exit status => some status.toNat
  | .signal _ => none

/-- The signal that has ended a program. -/
def signal (output : Output) : Option Nat :=
  match output.ending with
  | .exit _ => none
  | .signal number => some number

/-- The output without what was printed. -/
def uncaptured (output : Output) : Output :=
  { output with stdout := [], stderr := [] }

/-- What was printed, as text. -/
def stdoutText (output : Output) : String :=
  (Payload.bytes output.stdout).toTextLossy

/-- What was printed for diagnosis, as text. -/
def stderrText (output : Output) : String :=
  (Payload.bytes output.stderr).toTextLossy

end Output

end Workbench
