/-
Lists of directories in one text, with colons between them.  An empty entry is an entry.
-/
import Workbench.Text.Split

namespace Workbench.Path

/-- The entries of a list. -/
def searchList (text : List Char) : List (List Char) :=
  Text.split ':' text

end Workbench.Path
