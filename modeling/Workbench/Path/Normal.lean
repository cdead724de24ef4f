/-
The normal form of a path.

Dots are dropped and a name followed by two dots is dropped with them; two dots after the root
stay at the root, and two dots at the beginning of a relative path have to stay.  No file is
looked at, so a name that is a link is dropped like any other.
-/
import Workbench.Path.Basic

namespace Workbench.Path

/-- The normal components, the last one first, after one more component. -/
def pushNormal (done : List Component) : Component → List Component
  | .root => [.root]
  | .current => done
  | .name name => .name name :: done
  | .parent =>
      match done with
      | .name _ :: rest => rest
      | .root :: _ => done
      | _ => .parent :: done

/-- The components of the normal form. -/
def normalComponents (components : List Component) : List Component :=
  (components.foldl pushNormal []).reverse

/-- The normal form of a path; where nothing is left, a dot. -/
def normalize (path : List Char) : List Char :=
  match normalComponents (components path) with
  | [] => ['.']
  | components => ofComponents components

/-- The names that one more component leads to: the root leads outside of all, two dots lead one
name out, and a name leads into it. -/
def follow (names : List Name) : Component → List Name
  | .root => []
  | .current => names
  | .parent => names.dropLast
  | .name name => names ++ [name]

/-- The names that a path leads to from `names`, the outermost first. -/
def resolve (names : List Name) (path : List Char) : List Name :=
  (components path).foldl follow names

end Workbench.Path
