/-
Printing values, one after the other or in columns.
-/

namespace Workbench

/-- What is printed for a value, and after it. -/
def printed (value : String) (terminator : String) : String :=
  value ++ terminator

/-- What ends a line. -/
def lineEnd : String := "\n"

/-- A text at the right end of a column; one that is wider than the column stays as it is. -/
def alignedRight (width : Nat) (text : String) : String :=
  String.ofList (List.replicate (width - text.length) ' ') ++ text

end Workbench
