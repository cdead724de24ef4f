/-
Reading energy counters through a helper.

The helper is a program that gets the name of a domain and prints the counter.  Only what it
prints counts: blanks around the number are dropped, and a helper that reports failure but
prints a number is believed.
-/
import Workbench.Energy.Sample
import Workbench.Process.Command
import Workbench.Text.Blank

namespace Workbench.Energy

/-- The name under which the helper is looked for. -/
def helperName : List Char := "read-energy.sh".toList

/-- A helper and the domain it is asked for. -/
structure Reader where
  helper : List Char
  domain : Domain
deriving DecidableEq, Repr, Inhabited

namespace Reader

/-- The helper on the search path, if there is one. -/
def discover (files : Files) (environment : Environment) (domain : Domain) : Option Reader :=
  match findExecutable files environment helperName none false with
  | .answer (some helper) => some ⟨helper, domain⟩
  | _ => none

/-- The command that asks the helper. -/
def command (reader : Reader) : Command where
  program := .atPath reader.helper
  arguments := [reader.domain.label.toList]
  directory := none
  input := []
  captured := true

/-- The number that a helper has printed. -/
def valueOf (output : Output) : Option Int64 :=
  readInt64 (Text.trim output.stdoutText.toList)

/-- The reading that comes of a helper's output; a helper that cannot be started has none. -/
def sampleOf (reader : Reader) (reply : Option Output) : Option Sample :=
  (reply.bind valueOf).map fun value => ⟨reader.domain, value⟩

/-- The events of a reading. -/
def eventsOf (reply : Option Output) : List Log.Event :=
  Log.startingProgram ::
    match reply with
    | none => [Log.helperNotStarted]
    | some output =>
        (if output.success then [] else [Log.helperFailed]) ++
          (if (valueOf output).isSome then [] else [Log.helperUnreadable])

/-- Read the counter. -/
def sample (reader : Reader) (machine : Machine) : Option Sample :=
  reader.sampleOf (machine.run? reader.command)

/-- The events of reading the counter. -/
def events (reader : Reader) (machine : Machine) : List Log.Event :=
  eventsOf (machine.run? reader.command)

end Reader

/-- The counter of the standard domain; `none` where energy is not measured. -/
def current (machine : Machine) : Option Int64 := do
  let reader ← Reader.discover machine.files machine.environment .standard
  let sample ← reader.sample machine
  pure sample.value

end Workbench.Energy
