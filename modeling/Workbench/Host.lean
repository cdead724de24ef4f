/-
The kind of host that the harness runs on, as far as the writing of paths depends on it.

On one kind a backslash separates names as a slash does; on the other it is a character like
any other.  Everything else in the library describes the second kind.
-/

namespace Workbench

/-- A kind of host. -/
inductive HostKind
  | unix
  | windows
deriving DecidableEq, Repr, Inhabited

namespace HostKind

/-- The kind of host that the library describes. -/
def current : HostKind := .unix

/-- The name of a kind. -/
def label : HostKind → String
  | .unix => "unix"
  | .windows => "windows"

/-- Backslashes separate names. -/
def isWindows (kind : HostKind) : Bool :=
  kind == .windows

/-- A path with slashes only between its names. -/
def slashed (kind : HostKind) (path : List Char) : List Char :=
  if kind.isWindows then path.map fun c => if c = '\\' then '/' else c else path

end HostKind

end Workbench
