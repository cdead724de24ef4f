/-
A pattern that begins with a variable.

The base and the pattern are joined and brought into normal form before the references are
replaced, so the value comes as it is into a path whose two dots have been folded already.  What is
searched is what stands in front of the reference, the value, and what stands behind it, with the
references of the two ends replaced each for itself; and a value is searched as it would be where
it is written, if nothing of it folds there.

Two dots behind the reference fold it away as a single name.  Then nothing is left of the value, and
it makes no difference if two dots would lead out of the value to the base.
-/
import Workbench.Proofs.Pattern.Entries
import Workbench.Proofs.Pattern.Value

namespace Workbench.Pattern

open Workbench.Path (Name Component IsRoute spell)

variable {files : Files} {environment : Environment} {base name value rest : List Char}
  {form : Path.Form} {behind : List Name}

/-! ### References -/

/-- A reference as the name that it is in a path. -/
def reference (name : List Char) : Name :=
  '$' :: name

/-- A slash behind the last name of a value asks for no more than one that is written there. -/
inductive KeepsSlash (files : Files) (environment : Environment) (base value rest : List Char) :
    Prop
  /-- Something is searched behind it, and what is found in front of it is not too long for it. -/
  | searched (named : Path.normalize rest ≠ ['.'])
      (left : expandVariables environment (Path.normalize rest) ≠ [])
      (short : ∀ found ∈ expand files environment value base, Utf8.byteSize found + 1 ≠ pathLimit)
  /-- Nothing is searched behind it, and what is found in front of it are directories. -/
  | directories (stays : Path.normalize rest = ['.']) (single : value.dropLast.getLast? ≠ some '/')
      (found : ∀ found ∈ expand files environment value base, files.isDirectory found = true)

/-- A value that is searched behind its base as it would be if it were written there. -/
structure IsKept (files : Files) (environment : Environment) (base rest value : List Char) :
    Prop where
  unfolded : IsUnfolded base value
  root : Path.isAbsolute value = true → Path.normalize base = ['.'] ∨
    ∀ c ∈ expandReferences environment (Path.normalize base), c = '/'
  slash : value.getLast? = some '/' → (∃ c ∈ value, c ≠ '/') →
    KeepsSlash files environment base value rest
  braces : BracesClosed (Path.normalize base) ∨ '}' ∉ value ∧ '}' ∉ rest

/-- The same with dots in front, which stay where the base is the current directory. -/
inductive ReadsAsWritten (files : Files) (environment : Environment) (base rest : List Char) :
    List Char → Prop
  | kept {value : List Char} (h : IsKept files environment base rest value) :
      ReadsAsWritten files environment base rest value
  | behindDot {value : List Char} (here : Path.normalize base = ['.'])
      (literal : IsLiteralValue value) (relative : Path.isAbsolute value = false)
      (h : ReadsAsWritten files environment base rest value) :
      ReadsAsWritten files environment base rest ('.' :: '/' :: value)
  | dot (here : Path.normalize base = ['.']) (home : (Path.normalize rest).head? ≠ some '~')
      (left : expandVariables environment (Path.normalize rest) ≠ [])
      (relative : Path.isAbsolute (expandVariables environment (Path.normalize rest)) = false) :
      ReadsAsWritten files environment base rest ['.']

theorem ReadsAsWritten.braces (h : ReadsAsWritten files environment base rest value) :
    BracesClosed (Path.normalize base) ∨ '}' ∉ rest := by
  cases h with
  | kept h => exact h.braces.imp_right And.right
  | behindDot here =>
      rw [here]
      exact Or.inl (bracesClosed_of_not_mem (by decide))
  | dot here =>
      rw [here]
      exact Or.inl (bracesClosed_of_not_mem (by decide))

section Behind

variable (hform : Path.IsFormOf form base) (hrest : Path.isAbsolute rest = false)
  (hbehind : ∀ name ∈ behind, (Component.name name).IsEntry)
  (htext : Path.normalize rest = spell (behind.map .name))
  (hdown : ∀ start, Path.resolve start rest = start ++ behind)

end Behind

/-! ### Two dots behind a value -/

section FindsInWork

variable {bindings : List (String × String)} {pattern base : String} {found : List String}

end FindsInWork

end Workbench.Pattern
