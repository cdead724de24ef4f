/-
Paths by their text.

A path is a text, and its components are what the text means without a look at any file: a
leading slash is the root, repeated and trailing slashes mean nothing, and a dot means nothing
except at the very beginning of a relative path.  Joining and printing go back from components
to text.
-/
import Workbench.Text.Split

namespace Workbench.Path

/-- The name of a directory entry. -/
abbrev Name := List Char

/-- A part of a path. -/
inductive Component
  /-- The slash that an absolute path begins with. -/
  | root
  /-- The dot that a relative path may begin with. -/
  | current
  /-- Two dots. -/
  | parent
  /-- Any other part. -/
  | name (name : Name)
deriving DecidableEq, Repr, Inhabited

/-- The text of one component. -/
def Component.text : Component → List Char
  | .root => ['/']
  | .current => ['.']
  | .parent => ['.', '.']
  | .name text => text

/-- An absolute path begins with a slash. -/
def isAbsolute (path : List Char) : Bool :=
  path.head? == some '/'

/-- The component that a stretch between slashes stands for, if it is not at the beginning. -/
def ofStretch (stretch : List Char) : Option Component :=
  if stretch = [] ∨ stretch = ['.'] then none
  else if stretch = ['.', '.'] then some .parent
  else some (.name stretch)

/-- The components of a path. -/
def components (path : List Char) : List Component :=
  match path, Text.split '/' path with
  | '/' :: _, stretches => .root :: stretches.filterMap ofStretch
  | _, ['.'] :: stretches => .current :: stretches.filterMap ofStretch
  | _, stretches => stretches.filterMap ofStretch

/-- One path after the other, with a slash between them unless there is one already; an
absolute path is not changed by what stands before it. -/
def join (base path : List Char) : List Char :=
  if isAbsolute path then path
  else if base = [] ∨ base.getLast? = some '/' then base ++ path
  else base ++ '/' :: path

/-- A path extended by components. -/
def extend (base : List Char) (components : List Component) : List Char :=
  components.foldl (fun path component => join path component.text) base

/-- The path that components spell. -/
def ofComponents (components : List Component) : List Char :=
  extend [] components

/-- The components without a dot at the beginning. -/
def withoutCurrent : List Component → List Component
  | .current :: rest => rest
  | components => components

end Workbench.Path
