/-
Energy samples in JSON.

A sample is an object with the members `domain` and `value`, in either order and each exactly
once; members with other names mean nothing.  It may also be an array of the two values.
-/
import Workbench.Json.Enumerated

namespace Workbench.Energy

/-- The sixty-four bit number that a value is. -/
def int64OfJson? : Json → Option Int64
  | .number whole => whole.bind toInt64?
  | _ => none

/-- The sample with a domain and a value. -/
def Sample.ofParts? (domain value : Json) : Option Sample := do
  pure ⟨← Domain.ofJson? domain, ← int64OfJson? value⟩

/-- The sample that a value is. -/
def Sample.ofJson? : Json → Option Sample
  | .object members =>
      if Json.allNamed members then
        match Json.named members "domain", Json.named members "value" with
        | [domain], [value] => Sample.ofParts? domain value
        | _, _ => none
      else none
  | .array [domain, value] => Sample.ofParts? domain value
  | _ => none

/-- A sample in JSON. -/
def Sample.toJson (sample : Sample) : String :=
  "\x7b\"domain\":" ++ sample.domain.toJson ++ ",\"value\":" ++ toString sample.value.toInt ++
    "\x7d"

/-- The sample that a text spells. -/
def Sample.parse (text : String) : Option Sample :=
  (Json.read text.toList).bind Sample.ofJson?

end Workbench.Energy
