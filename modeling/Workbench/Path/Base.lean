/-
The directory that holds all of several paths.

The base of a path is the path without its last component; the root, and a path without
components, are their own base.  What all bases begin with, component by component, is the
common base.
-/
import Workbench.Path.Basic

namespace Workbench.Path

/-- The components of the base of a path. -/
def baseComponents (path : List Char) : List Component :=
  let components := components path
  if components.getLast? = some .root then components else components.dropLast

/-- What two lists both begin with. -/
def sharedStart {α : Type} [DecidableEq α] : List α → List α → List α
  | a :: as, b :: bs => if a = b then a :: sharedStart as bs else []
  | _, _ => []

/-- The components that all bases begin with; there are none of no path. -/
def commonComponents : List (List Char) → Option (List Component)
  | [] => none
  | path :: paths =>
      some (paths.foldl (fun shared other => sharedStart shared (baseComponents other))
        (baseComponents path))

/-- The common base of paths. -/
def commonBase (paths : List (List Char)) : Option (List Char) :=
  (commonComponents paths).map ofComponents

end Workbench.Path
