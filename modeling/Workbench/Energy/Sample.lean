/-
Energy counters.

A counter belongs to a domain of the processor and only grows.  One reading of it means
nothing; the energy that a run takes is the difference of a later and an earlier reading.
-/
import Workbench.Decimal.Integer

namespace Workbench.Energy

/-- What a counter measures. -/
inductive Domain
  | cpu
  | core
  | uncore
  | external
deriving DecidableEq, Repr, Inhabited

/-- All domains. -/
def Domain.all : List Domain := [.cpu, .core, .uncore, .external]

/-- The domain that is measured when none is named. -/
def Domain.standard : Domain := .cpu

/-- The name of a domain. -/
def Domain.label : Domain → String
  | .cpu => "cpu"
  | .core => "core"
  | .uncore => "uncore"
  | .external => "external"

/-- The domain with a name. -/
def Domain.ofLabel? (label : String) : Option Domain :=
  Domain.all.find? fun domain => domain.label == label

/-- A reading of a counter. -/
structure Sample where
  domain : Domain
  value : Int64
deriving DecidableEq, Repr, Inhabited

/-- How far a counter has come from one reading to a later one.  There is no answer for
different domains, for a counter that has gone back, and for a difference that is out of
range. -/
def Sample.delta (first later : Sample) : Option Int64 :=
  if first.domain ≠ later.domain ∨ later.value < first.value then none
  else toInt64? (later.value.toInt - first.value.toInt)

/-- The differences of neighbouring readings; a missing reading has none. -/
def deltas : List (Option Sample) → List (Option Int64)
  | first :: later :: rest =>
      (match first, later with
        | some a, some b => a.delta b
        | _, _ => none) :: deltas (later :: rest)
  | _ => []

end Workbench.Energy
