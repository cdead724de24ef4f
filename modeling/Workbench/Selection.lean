/-
Choosing from lists: which texts occur, which values stay.

Values are compared by the Boolean equality of their type, which need not be reflexive: a
number that is not equal to itself is never removed.
-/
import Workbench.Text.Line

namespace Workbench

variable {α : Type} [BEq α]

/-- Whether one of `parts` occurs in `text`. -/
def containsAny (text : String) (parts : List String) : Bool :=
  parts.any fun part => Text.holds part.toList text.toList

/-- The values that differ from `unwanted`, in order. -/
def removeAll (values : List α) (unwanted : α) : List α :=
  values.filter fun value => !(value == unwanted)

/-- The values of all groups in order, without those equal to a member of `excluded`. -/
def flattenExcept (groups : List (List α)) (excluded : List α) : List α :=
  groups.flatten.filter fun value => !excluded.any fun other => other == value

end Workbench
