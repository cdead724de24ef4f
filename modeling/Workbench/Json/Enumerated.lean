/-
Names in JSON.

A value out of a fixed set is written as the text of its name.  It may also be written as an
object whose only member has that name and no value.
-/
import Workbench.Json.Reader
import Workbench.Commit
import Workbench.Energy.Sample

namespace Workbench.Json

/-- The name that a value spells. -/
def nameOf : Json → Option String
  | .string content => content
  | .object [(name, .null)] => name
  | _ => none

/-- The text of a name that needs no escapes. -/
def quoted (name : String) : String :=
  "\"" ++ name ++ "\""

end Workbench.Json

namespace Workbench.Energy

/-- The domain that a value names. -/
def Domain.ofJson? (json : Json) : Option Domain :=
  json.nameOf.bind Domain.ofLabel?

/-- A domain in JSON. -/
def Domain.toJson (domain : Domain) : String :=
  Json.quoted domain.label

end Workbench.Energy

namespace Workbench.Commit

/-- The outcome that a value names. -/
def Outcome.ofJson? (json : Json) : Option Outcome :=
  json.nameOf.bind Outcome.ofLabel?

/-- An outcome in JSON. -/
def Outcome.toJson (outcome : Outcome) : String :=
  Json.quoted outcome.label

end Workbench.Commit
