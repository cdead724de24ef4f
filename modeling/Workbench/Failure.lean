/-
Why a task of the library fails.

A failure belongs to a category, which its wording begins with, and carries the detail of the
layer it comes from.
-/
import Workbench.Text.Utf8

namespace Workbench

/-- A failure by category. -/
inductive Failure
  /-- Reading or writing files. -/
  | io (detail : String)
  /-- Starting a program. -/
  | command (detail : String)
  /-- Output that is not text. -/
  | decode (fault : Utf8.Fault)
  /-- A document that is refused. -/
  | xml (detail : String)
  /-- A signal that was not delivered. -/
  | signal (detail : String)
  /-- Something that cannot be done with this object. -/
  | unsupported (detail : String)
  /-- Everything else. -/
  | other (detail : String)
deriving DecidableEq, Repr, Inhabited

namespace Failure

/-- How the wording of a failure begins. -/
def label : Failure → String
  | .io _ => "I/O error"
  | .command _ => "Command failed"
  | .decode _ => "Invalid UTF-8 in output"
  | .xml _ => "XML error"
  | .signal _ => "Signal delivery failed"
  | .unsupported _ => "Unsupported operation"
  | .other _ => "Other error"

/-- What the wording says after the label. -/
def detail : Failure → String
  | .io detail => detail
  | .command detail => detail
  | .decode fault => fault.message
  | .xml detail => detail
  | .signal detail => detail
  | .unsupported detail => detail
  | .other detail => detail

/-- The wording of a failure. -/
def message (failure : Failure) : String :=
  failure.label ++ ": " ++ failure.detail

end Failure

end Workbench
