/-
Slashes that a pattern has too many.

An empty part behind a name asks for a directory, and what is searched in a directory is found there
whether its path ends in a slash or not.  So a slash that is written twice changes no find, as long
as something is searched behind it.  The exception is a directory whose path is just short enough:
with a slash behind it the path is too long, while its entries are still listed without one.  A name
behind it would be too long anyway.

The parts in front of the slash are the same in both patterns, so the searches go in step until they
come to it, one of them with one more step to go.
-/
import Workbench.Proofs.Files.Behind
import Workbench.Proofs.Pattern.Depth

namespace Workbench.Pattern

open Workbench.Path (Name Component IsRoute spell)

variable {files : Files} {search : Search} {path : List Char} {name : Name} {parts : List Part}
  {fuel : Nat}

/-! ### A directory with a slash behind it -/

/-- A path that a name has been put into. -/
def IsWritten (path : List Char) : Prop :=
  Path.course path ≠ []

theorem IsWritten.ne_nil (h : IsWritten path) : path ≠ [] := by
  rintro rfl
  exact h rfl

theorem IsWritten.not_isHere (h : IsWritten path) : isHere path = false := by
  rw [Bool.eq_false_iff]
  exact fun hhere => h (isHere_iff.1 hhere).2

theorem IsWritten.below (h : IsWritten path) (name : Name) :
    below path name = Path.join path name := by
  rw [Pattern.below, h.not_isHere, if_neg Bool.false_ne_true]

/-- An entry is written into every path. -/
theorem isWritten_below {component : Component} (h : component.IsEntry) (path : List Char) :
    IsWritten (Pattern.below path component.text) := by
  have hrelative : Path.isAbsolute component.text = false := Path.isAbsolute_of_not_mem h.2
  have hentry : Path.stretchEntries component.text = [component] := by
    rw [Path.stretchEntries_of_not_mem h.2, h.1]
    rfl
  unfold IsWritten Pattern.below
  split
  · rw [Path.course_of_relative hrelative, hentry]
    exact List.cons_ne_nil _ _
  · rw [Path.course_join hrelative, hentry]
    exact List.append_ne_nil_of_right_ne_nil _ (List.cons_ne_nil _ _)

theorem afterDepths_append {front : List Part} {tokens : List Token} (more : List Part) :
    afterDepths (front ++ .name tokens :: more) = afterDepths front ++ .name tokens :: more := by
  induction front with
  | nil => rfl
  | cons part rest ih =>
      cases part with
      | depths => exact ih
      | name other => rfl

/-- One step is not enough for any part. -/
theorem inside_one (part : Part) (rest : List Part) :
    search.inside (part :: rest) path 1 = [] := by
  cases part with
  | depths => simp [inside_depths, Search.visit]
  | name tokens =>
      cases hname : literal? tokens with
      | some name => rw [inside_literal hname, Search.inside, ite_self]
      | none =>
          rw [inside_wildcard hname]
          simp [Search.inside, Search.visit]

theorem visit_one (h : afterDepths parts ≠ []) : search.visit parts name path 1 = [] := by
  cases parts with
  | nil => exact absurd rfl h
  | cons part rest =>
      cases part with
      | depths =>
          have hmore : afterDepths rest ≠ [] := h
          rw [visit_depths rfl hmore, Search.visit, Search.inside, ite_self, List.append_nil]
      | name tokens => rw [Search.visit, Search.inside, ite_self]

section Front

variable {tokens : List Token} {component : Component} {more : List Part}

/-- Two continuations find the same behind a path, one of them with a step more to go. -/
def GoesAlike (search : Search) (more parts : List Part) (path : List Char) : Prop :=
  ∀ left, search.inside more path (left + 1) = search.inside parts path left

/-- With this much fuel, parts in front of two continuations find the same if the continuations find
the same behind each find of the parts: in a directory, and at an entry. -/
structure SearchesAlike (search : Search) (tokens : List Token) (more parts : List Part)
    (fuel : Nat) : Prop where
  inside : ∀ (front : List Part) (path : List Char),
    (∀ found ∈ Search.inside ⟨search.files, false⟩ (front ++ [.name tokens]) path (fuel + 1),
      IsWritten found → GoesAlike search more parts found) →
    search.inside (front ++ .name tokens :: more) path (fuel + 1) =
      search.inside (front ++ .name tokens :: parts) path fuel
  visit : ∀ (front : List Part) (name : Name) (path : List Char), IsWritten path →
    (∀ found ∈ Search.visit ⟨search.files, false⟩ (front ++ [.name tokens]) name path (fuel + 1),
      IsWritten found → GoesAlike search more parts found) →
    search.visit (front ++ .name tokens :: more) name path (fuel + 1) =
      search.visit (front ++ .name tokens :: parts) name path fuel

theorem afterDepths_append_ne_nil (front more : List Part) :
    afterDepths front ++ .name tokens :: more ≠ [] :=
  List.append_ne_nil_of_right_ne_nil _ (List.cons_ne_nil _ _)

theorem SearchesAlike.zero : SearchesAlike search tokens more parts 0 where
  inside front path _ := by
    obtain ⟨part, rest, hfront⟩ := List.exists_cons_of_ne_nil
      (List.append_ne_nil_of_right_ne_nil front (List.cons_ne_nil (Part.name tokens) more))
    rw [hfront, inside_one, Search.inside]
  visit front name path _ _ := by
    rw [visit_one (by rw [afterDepths_append]; exact afterDepths_append_ne_nil front more),
      Search.visit]

section Step

variable (h : SearchesAlike search tokens more parts fuel)

include h

/-- The entries of a directory are written into its path. -/
theorem SearchesAlike.entries (hproper : search.files.root.Proper) (front : List Part)
    (path : List Char)
    (hfound : ∀ name ∈ entryNames search.files path,
      ∀ found ∈ Search.visit ⟨search.files, false⟩ (front ++ [.name tokens]) name (below path name)
        (fuel + 1), IsWritten found → GoesAlike search more parts found) :
    ((entryNames search.files path).flatMap fun name =>
      search.visit (front ++ .name tokens :: more) name (below path name) (fuel + 1)) =
    (entryNames search.files path).flatMap fun name =>
      search.visit (front ++ .name tokens :: parts) name (below path name) fuel := by
  refine List.flatMap_congr fun name hmem => h.visit front name _ ?_ (hfound name hmem)
  exact isWritten_below (isFileName_of_mem_entryNames hproper hmem).entry path

end Step

end Front

/-! ### Only directories -/

end Workbench.Pattern
