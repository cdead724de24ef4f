/-
The search ends before its fuel does.

The fuel only makes the search a recursion, so more of it must not find more.  It does not, because
paths are bounded: a step from a directory to one of its entries makes the path longer by a slash
and a name, and a path that is too long leads to no directory.  The measure is

    need(parts, path) = 2 · (number of parts) + (bytes that the longest path has left)

where the current directory, which is not written before a name, leaves all of them.  A step that
uses a part up lowers the first summand and never raises the second, and a step to an entry lowers
the second by two, which pays for the entry and for the directory that it may be.

A search that begins with more fuel than it needs has the same result with any amount beyond that.
So an empty part behind the root, which is a step without progress, can be left out.
-/
import Workbench.Proofs.Pattern.Descent

namespace Workbench.Pattern

open Workbench.Path (Name Component)

variable {files : Files} {path : List Char} {name : Name} {parts : List Part} {fuel : Nat}

/-! ### What is left of the longest path -/

/-- A path as it stands in front of a name. -/
def withSlash (path : List Char) : List Char :=
  if path = [] ∨ path.getLast? = some '/' then path else path ++ ['/']

theorem byteSize_trail_replicate (component : Component) (times : Nat) :
    Utf8.byteSize (Path.trail (List.replicate times component)) =
      times * (Utf8.byteSize component.text + 1) := by
  induction times with
  | zero => rw [Nat.zero_mul]; rfl
  | succ times ih =>
      have htrail : Path.trail (List.replicate (times + 1) component) =
          ['/'] ++ (component.text ++ Path.trail (List.replicate times component)) := rfl
      have hslash : Utf8.byteSize ['/'] = 1 := rfl
      rw [htrail, Utf8.byteSize_append, Utf8.byteSize_append, ih, hslash, Nat.succ_mul]
      omega

/-- What a path takes of the longest one: nothing for the current directory. -/
def reach (path : List Char) : Nat :=
  if isHere path then 0 else Utf8.byteSize (withSlash path)

theorem isHere_iff : isHere path = true ↔ path ≠ [] ∧ Path.course path = [] := by
  rw [isHere, beq_iff_eq, Path.course_eq_nil]
  constructor
  · intro hcurrent
    refine ⟨?_, Or.inr hcurrent⟩
    rintro rfl
    cases hcurrent
  · rintro ⟨hne, hempty | hcurrent⟩
    · exact absurd hempty hne
    · exact hcurrent

theorem areCut_of_partsOf {text : List Char} (h : partsOf text = some parts) : AreCut parts := by
  intro tokens name hmem hname
  unfold partsOf at h
  obtain ⟨stretch, hstretch, hpart⟩ := exists_of_mem_mapM h hmem
  have hread := tokensOf_of_partOf hpart
  rw [literal?_eq_some.1 hname] at hread
  have hsplit : stretch ∈ Text.split '/' text := by
    split at hstretch
    · exact List.mem_of_mem_dropLast hstretch
    · exact hstretch
  rw [← eq_of_tokensOf hread]
  exact Text.not_mem_of_mem_split hsplit

end Workbench.Pattern
