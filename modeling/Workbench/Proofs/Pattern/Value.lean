/-
A value behind a base.

A variable is replaced after the path that it stands in has been brought into normal form.  So its
value comes into that path as it is, where a value that had been written there would have been
brought into normal form with the rest.  The two texts have the same things in front and behind:
what becomes of the base, and what becomes of the names behind the variable.  Between them stands
the value, or the entries of its path, if nothing of it folds; and a value is searched as its
entries are.

An absolute value does not take the place of the base, as it would in a join; it is put behind the
base, which makes no difference if the base is nothing but slashes.
-/
import Workbench.Proofs.Pattern.Stretches

namespace Workbench.Pattern

open Workbench.Path (Name Component IsRoute spell)

variable {files : Files} {environment : Environment} {base value rest : List Char}
  {route entries : List Component} {first : Component} {form : Path.Form} {behind : List Name}

/-! ### The text in front of a name -/

/-- What a route puts in front of the names behind it. -/
def lead (route : List Component) : List Char :=
  if route = [] then [] else withSlash (spell route)

/-- A value that stands for itself in a pattern. -/
structure IsLiteralValue (value : List Char) : Prop where
  ne_nil : value ≠ []
  plain : IsPlain value
  written : '$' ∉ value
  home : value.head? ≠ some '~'

/-- A value that nothing folds of: it has no dots, and its two dots do not lead out of a name. -/
structure IsUnfolded (base value : List Char) : Prop where
  dotless : ['.'] ∉ Text.split '/' value
  kept : Path.course (Path.normalize (Path.join base value)) =
    Path.course (Path.join (Path.normalize base) value)

section Unfolded

variable (hliteral : IsLiteralValue value) (hunfolded : IsUnfolded base value)
  (hform : Path.IsFormOf form base) (hrest : Path.isAbsolute rest = false)
  (hbehind : ∀ name ∈ behind, (Component.name name).IsEntry)
  (hdown : ∀ start, Path.resolve start rest = start ++ behind)

end Unfolded

/-! ### A slash at the end of a value -/

end Workbench.Pattern
