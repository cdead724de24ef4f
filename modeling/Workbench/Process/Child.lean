/-
Handles to programs that may still be running.

A program can leave others behind that it has started.  They belong to its group, and as long as one
of them holds the streams open there is more to come, though the program itself has ended.  So the
output is complete when the program has ended and its streams are closed, and only then is there
something to answer.  What the system makes of the processes is given from outside (`Host`).

A handle collects the output once and gives the same output to everyone who asks from then on.
A bad end is a failure only where the expression asks for that, and no handle is made from such an
expression: how a program ends is reported in its output.  Signals go to the group that the program
leads; a program that leads no group cannot be signalled.
-/
import Workbench.Process.Output
import Workbench.Process.Signal

namespace Workbench

/-- How a program is to be run. -/
structure Expression where
  /-- A bad end is a failure. -/
  checked : Bool
  /-- The program leads a group of its own. -/
  ownGroup : Bool
deriving DecidableEq, Repr, Inhabited

namespace Expression

/-- A bad end is no failure. -/
def unchecked (expression : Expression) : Expression :=
  { expression with checked := false }

/-- The program leads a group of its own. -/
def grouped (expression : Expression) : Expression :=
  { expression with ownGroup := true }

end Expression

/-- What runs a program: the system with its processes, and the library in front of it.  The states
are those of the program and of everything that it has started. -/
structure Host (σ : Type) where
  /-- The number of the program. -/
  number : Nat
  /-- The program begins, in a group of its own or in that of its caller. -/
  launch (ownGroup : Bool) : σ
  /-- How the program itself has ended, once it has. -/
  ending : σ → Option Ending
  /-- What has been printed on the two streams, once nobody holds them open.  A stream that is not
  captured is empty and never open. -/
  printed : σ → Option (List UInt8 × List UInt8)
  /-- Some time passes. -/
  pass : σ → Nat → σ
  /-- The time until the program has ended and its streams are closed; `none` if both never are. -/
  remaining : σ → Option Nat
  /-- What the system answers to a signal for the group of the program. -/
  answer : σ → Signal → GroupAnswer
  /-- The signal reaches the processes of the group. -/
  receive : σ → Signal → σ
  /-- Asking without waiting for the program still waits for its streams, once it has ended. -/
  joins : Bool
  /-- What is said of a bad end that is a failure. -/
  complaint : Ending → String

/-- The output, once it is complete. -/
def Host.output? {σ : Type} (host : Host σ) (state : σ) : Option Output := do
  let ending ← host.ending state
  let (stdout, stderr) ← host.printed state
  pure ⟨ending, stdout, stderr⟩

/-- A handle to a program. -/
structure Child (σ : Type) where
  /-- The number of the process. -/
  process : Nat
  /-- The program leads a group of its own. -/
  leader : Bool
  /-- A bad end is a failure. -/
  checked : Bool
  state : σ
  /-- The output, once it has been collected. -/
  collected : Option Output

/-- What is done with a handle, or happens to its program. -/
inductive ChildStep
  /-- Some time passes. -/
  | pause (time : Nat)
  /-- Ask for the output without waiting for the program. -/
  | tryWait
  /-- Wait for the output. -/
  | wait
  /-- Signal the group. -/
  | signal (signal : Signal)
deriving DecidableEq, Repr, Inhabited

/-- What a step answers. -/
inductive ChildAnswer
  /-- Nothing was asked. -/
  | nothing
  /-- There is no output yet. -/
  | running
  /-- There never will be an output, and whoever waits for it waits forever. -/
  | waiting
  | output (output : Output)
  | delivered
  | refused (failure : Failure)
deriving DecidableEq, Repr, Inhabited

namespace Child

variable {σ : Type} (host : Host σ)

/-- Start an expression. -/
def startAs (expression : Expression) (leader : Bool) : Child σ :=
  ⟨host.number, leader, expression.checked, host.launch expression.ownGroup, none⟩

/-- Start an expression in the group of the caller. -/
def start (expression : Expression) : Child σ :=
  startAs host expression.unchecked false

/-- Start an expression in a group of its own. -/
def startGroupLeader (expression : Expression) : Child σ :=
  startAs host expression.unchecked.grouped true

/-- The handle after some time. -/
def pass (child : Child σ) (time : Nat) : Child σ :=
  { child with state := host.pass child.state time }

/-- Collect the output, if it is complete and has not been collected. -/
def collect (child : Child σ) : Child σ :=
  { child with collected := child.collected <|> host.output? child.state }

/-- The answer with an output. -/
def report (child : Child σ) (output : Output) : ChildAnswer :=
  if child.checked && !output.success then .refused (.io (host.complaint output.ending))
  else .output output

/-- Ask for the output, with the answer if there is none. -/
def ask (child : Child σ) (otherwise : ChildAnswer) : ChildAnswer × Child σ :=
  let child := child.collect host
  match child.collected with
  | some output => (child.report host output, child)
  | none => (otherwise, child)

/-- Wait until the output is complete. -/
def await (child : Child σ) : ChildAnswer × Child σ :=
  match (child.collect host).collected with
  | some _ => child.ask host .running
  | none =>
      match host.remaining child.state with
      | some time => (child.pass host time).ask host .waiting
      | none => (.waiting, child)

/-- The failure to signal a program that leads no group. -/
def notLeader (child : Child σ) : Failure :=
  .unsupported s!"process {child.process} was not started as a process group leader"

/-- Signal the group that the program leads. -/
def signalGroup (child : Child σ) (signal : Signal) : ChildAnswer × Child σ :=
  if !child.leader then (.refused child.notLeader, child)
  else
    let answer := host.answer child.state signal
    let child := if answer = .reached then { child with state := host.receive child.state signal }
      else child
    match killGroupTo answer child.process signal with
    | .ok () => (.delivered, child)
    | .error failure => (.refused failure, child)

/-- The answer to a step and the handle after it. -/
def step (child : Child σ) : ChildStep → ChildAnswer × Child σ
  | .pause time => (.nothing, child.pass host time)
  | .tryWait =>
      if (host.ending child.state).isSome && host.joins then child.await host
      else child.ask host .running
  | .wait => child.await host
  | .signal signal => child.signalGroup host signal

/-- The answers to steps one after the other. -/
def answers (child : Child σ) : List ChildStep → List ChildAnswer
  | [] => []
  | step :: steps => (child.step host step).1 :: (child.step host step).2.answers steps

end Child

/-! ### Programs that do little -/

/-- What becomes of a program and a process that it may leave behind. -/
inductive Stage
  | running
  /-- The program has ended, and the process it has left behind has not. -/
  | behind (ending : Ending)
  /-- Both have ended. -/
  | closed (ending : Ending) (stdout : List UInt8)
deriving DecidableEq, Repr, Inhabited

/-- What a program does that any signal ends. -/
structure Plan where
  /-- How it ends by itself; `none` if it does not. -/
  ending : Option Ending
  /-- What the process that it leaves behind prints at last; `none` if it leaves none behind. -/
  late : Option (List UInt8)
  /-- Why the system refuses signals for it, if it does. -/
  guarded : Option String
deriving DecidableEq, Repr, Inhabited

namespace Plan

/-- A program that runs until a signal ends it. -/
def endless : Plan := ⟨none, none, none⟩

/-- A program that ends with a status. -/
def exiting (status : Nat) : Plan := ⟨some (.ofStatus status), none, none⟩

/-- What has become of the program a moment later. -/
def next (plan : Plan) : Stage → Stage
  | .running =>
      match plan.ending with
      | none => .running
      | some ending => if plan.late.isSome then .behind ending else .closed ending []
  | .behind ending => .closed ending (plan.late.getD [])
  | .closed ending stdout => .closed ending stdout

/-- What has become of it some moments later. -/
def pass (plan : Plan) (stage : Stage) : Nat → Stage
  | 0 => stage
  | time + 1 => plan.pass (plan.next stage) time

/-- What runs a program with this plan. -/
def host (plan : Plan) (number : Nat) : Host Stage where
  number := number
  launch _ := .running
  ending
    | .running => none
    | .behind ending => some ending
    | .closed ending _ => some ending
  printed
    | .closed _ stdout => some (stdout, [])
    | _ => none
  pass := plan.pass
  remaining
    | .running => plan.ending.map fun _ => if plan.late.isSome then 2 else 1
    | .behind _ => some 1
    | .closed _ _ => some 0
  answer
    | .closed _ _, _ => .noGroup
    | _, _ =>
        match plan.guarded with
        | some reason => .refused reason
        | none => .reached
  receive
    | .running, signal => .closed (.signal signal.number) []
    | .behind ending, _ => .closed ending []
    | .closed ending stdout, _ => .closed ending stdout
  joins := true
  complaint _ := "bad end"

end Plan

end Workbench
