/-
What a tree of files looks like after a node has been put into it.

A node holds everything below it, so a directory changes with each of its files.  What is at a place
alone is its kind: the content and the mode of a file, the target of a link, or that it is a
directory.  A file that is put where there is none, or over another file, changes the kind of one
place and of no other.  It has to have a directory around it, which is what `HasRoom` says.
-/
import Mathlib.Data.List.Basic
import Mathlib.Logic.Function.Basic
import Workbench.Files.Basic

namespace Workbench

open Workbench.Path (Name)

/-! ### Kinds -/

/-- What is at a place, without what is below it.  Whether the names in a directory may be listed
does not count. -/
inductive Kind
  | file (content : List UInt8) (mode : Nat)
  | link (target : List Char)
  | directory
deriving DecidableEq, Repr, Inhabited

namespace Node

/-- The kind of a node. -/
def kind : Node → Kind
  | .file content mode => .file content mode
  | .link target => .link target
  | .directory _ _ => .directory

theorem kind_eq_directory {node : Node} :
    node.kind = .directory ↔ ∃ listable entries, node = .directory listable entries := by
  cases node <;> simp [kind]

theorem kind_eq_file {node : Node} {content : List UInt8} {mode : Nat} :
    node.kind = .file content mode ↔ node = .file content mode := by
  cases node <;> simp [kind]

theorem kind_eq_link {node : Node} {target : List Char} :
    node.kind = .link target ↔ node = .link target := by
  cases node <;> simp [kind]

/-- The kind of what is at a place. -/
def kind? (root : Node) (place : Place) : Option Kind :=
  (root.get? place).map kind

theorem kind?_eq_none {root : Node} {place : Place} :
    root.kind? place = none ↔ root.get? place = none := by
  simp [kind?]

theorem kind?_eq_directory {root : Node} {place : Place} :
    root.kind? place = some .directory ↔
      ∃ listable entries, root.get? place = some (.directory listable entries) := by
  simp only [kind?, Option.map_eq_some_iff, kind_eq_directory]
  constructor
  · rintro ⟨node, hnode, listable, entries, rfl⟩
    exact ⟨listable, entries, hnode⟩
  · rintro ⟨listable, entries, hnode⟩
    exact ⟨_, hnode, listable, entries, rfl⟩

theorem kind?_eq_file {root : Node} {place : Place} {content : List UInt8} {mode : Nat} :
    root.kind? place = some (.file content mode) ↔
      root.get? place = some (.file content mode) := by
  simp [kind?, Option.map_eq_some_iff, kind_eq_file]

theorem kind?_eq_link {root : Node} {place : Place} {target : List Char} :
    root.kind? place = some (.link target) ↔ root.get? place = some (.link target) := by
  simp [kind?, Option.map_eq_some_iff, kind_eq_link]

/-! ### Reading -/

@[simp] theorem get?_nil (root : Node) : root.get? [] = some root := by
  rw [get?]

theorem get?_directory_cons (listable : Bool) (entries : List (Name × Node)) (name : Name)
    (rest : Place) :
    (Node.directory listable entries).get? (name :: rest) =
      (entries.lookup name).bind (·.get? rest) := by
  rw [get?]
  cases entries.lookup name <;> rfl

theorem get?_cons_eq_some {root node : Node} {name : Name} {rest : Place} :
    root.get? (name :: rest) = some node ↔
      ∃ listable entries child, root = .directory listable entries ∧
        entries.lookup name = some child ∧ child.get? rest = some node := by
  cases root with
  | file content mode => simp [get?]
  | link target => simp [get?]
  | directory listable entries => simp [get?_directory_cons, Option.bind_eq_some_iff]

theorem get?_append (root : Node) (place rest : Place) :
    root.get? (place ++ rest) = (root.get? place).bind (·.get? rest) := by
  induction place generalizing root with
  | nil => simp
  | cons name place ih =>
      cases root with
      | file content mode => simp [get?]
      | link target => simp [get?]
      | directory listable entries =>
          rw [List.cons_append, get?_directory_cons, get?_directory_cons]
          cases entries.lookup name with
          | none => rfl
          | some child => exact ih child

/-- What a directory holds under a name. -/
theorem get?_concat {root : Node} {place : Place} {listable : Bool} {entries : List (Name × Node)}
    (h : root.get? place = some (.directory listable entries)) (name : Name) :
    root.get? (place ++ [name]) = entries.lookup name := by
  rw [get?_append, h, Option.bind_some, get?_directory_cons]
  cases entries.lookup name <;> simp

theorem kind?_concat {root : Node} {place : Place} {listable : Bool} {entries : List (Name × Node)}
    (h : root.get? place = some (.directory listable entries)) (name : Name) :
    root.kind? (place ++ [name]) = (entries.lookup name).map kind := by
  rw [kind?, get?_concat h]

/-- Nothing is below what is no directory. -/
theorem get?_append_eq_none {root : Node} {place rest : Place}
    (h : root.kind? place ≠ some .directory) (hrest : rest ≠ []) :
    root.get? (place ++ rest) = none := by
  obtain ⟨name, rest, rfl⟩ := List.exists_cons_of_ne_nil hrest
  rw [get?_append]
  cases hnode : root.get? place with
  | none => rfl
  | some node =>
      cases node with
      | file content mode => simp [get?]
      | link target => simp [get?]
      | directory listable entries => exact absurd (kind?_eq_directory.2 ⟨_, entries, hnode⟩) h

/-! ### Room for a node -/

/-- A place is the root, or there is a directory around it. -/
def HasRoom (root : Node) (place : Place) : Prop :=
  place = [] ∨ root.kind? place.dropLast = some .directory

theorem hasRoom_concat {root : Node} {place : Place} {name : Name}
    (h : root.kind? place = some .directory) : root.HasRoom (place ++ [name]) := by
  refine Or.inr ?_
  rwa [List.dropLast_concat]

theorem hasRoom_of_get? {root node : Node} {place : Place} (h : root.get? place = some node) :
    root.HasRoom place := by
  rcases List.eq_nil_or_concat' place with rfl | ⟨parent, name, rfl⟩
  · exact Or.inl rfl
  · refine hasRoom_concat ?_
    rw [get?_append] at h
    obtain ⟨around, haround, hnode⟩ := Option.bind_eq_some_iff.1 h
    obtain ⟨listable, entries, child, rfl, -, -⟩ := get?_cons_eq_some.1 hnode
    exact kind?_eq_directory.2 ⟨_, entries, haround⟩

/-- Around a directory there are directories, up to the root. -/
theorem kind?_root {root : Node} {place : Place} (h : root.kind? place = some .directory) :
    root.kind? [] = some .directory := by
  obtain ⟨listable, entries, hdirectory⟩ := kind?_eq_directory.1 h
  cases place with
  | nil => exact h
  | cons name rest =>
      obtain ⟨_, outer, child, rfl, -, -⟩ := get?_cons_eq_some.1 hdirectory
      exact kind?_eq_directory.2 ⟨_, outer, get?_nil _⟩

/-! ### Putting -/

theorem lookup_putEntry (entries : List (Name × Node)) (name other : Name) (node : Node) :
    (putEntry entries name node).lookup other =
      if other = name then some node else entries.lookup other := by
  induction entries with
  | nil =>
      by_cases h : other = name
      · simp [putEntry, h]
      · simp [putEntry, List.lookup_cons, beq_eq_false_iff_ne.2 h, h]
  | cons entry entries ih =>
      obtain ⟨key, child⟩ := entry
      by_cases hkey : key = name
      · by_cases h : other = name
        · simp [putEntry, hkey, h]
        · simp [putEntry, List.lookup_cons, hkey, beq_eq_false_iff_ne.2 h, h]
      · by_cases h : other = key
        · simp [putEntry, hkey, h]
        · simp [putEntry, List.lookup_cons, hkey, beq_eq_false_iff_ne.2 h, ih]

section Put

variable {listable : Bool} {entries : List (Name × Node)} {name : Name} {rest : Place}
  {root new : Node}

theorem put_cons_of_lookup {child : Node} (h : entries.lookup name = some child) :
    put new (.directory listable entries) (name :: rest) =
      .directory listable (putEntry entries name (put new child rest)) := by
  simp [put, h]

theorem put_singleton :
    put new (.directory listable entries) [name] =
      .directory listable (putEntry entries name new) := by
  cases h : entries.lookup name <;> simp [put, h]

/-- Where no directory leads to the place, nothing changes. -/
theorem put_cons_of_missing (h : entries.lookup name = none) (hrest : rest ≠ []) :
    put new (.directory listable entries) (name :: rest) = .directory listable entries := by
  obtain ⟨next, rest, rfl⟩ := List.exists_cons_of_ne_nil hrest
  simp [put, h]

theorem put_cons_of_kind (h : root.kind ≠ .directory) : put new root (name :: rest) = root := by
  cases root with
  | file content mode => simp [put]
  | link target => simp [put]
  | directory listable entries => exact absurd rfl h

theorem kind_put_cons : (put new root (name :: rest)).kind = root.kind := by
  cases root with
  | file content mode => simp [put]
  | link target => simp [put]
  | directory listable entries =>
      rw [put.eq_def]
      dsimp only
      split <;> rfl

end Put

/-- A node that is put where there is room is there. -/
theorem get?_put_self {root new : Node} {place : Place} (h : root.HasRoom place) :
    (put new root place).get? place = some new := by
  induction place generalizing root with
  | nil => rw [put, get?_nil]
  | cons name rest ih =>
      have hroom : root.kind? (name :: rest).dropLast = some .directory := by
        rcases h with h | h
        · cases h
        · exact h
      cases rest with
      | nil =>
          obtain ⟨listable, entries, hroot⟩ := kind?_eq_directory.1 hroom
          obtain rfl : root = .directory listable entries := by simpa using hroot
          rw [put_singleton, get?_directory_cons, lookup_putEntry, if_pos rfl]
          exact get?_nil new
      | cons next rest =>
          rw [List.dropLast_cons_cons] at hroom
          obtain ⟨listable, inner, hinner⟩ := kind?_eq_directory.1 hroom
          obtain ⟨listable, entries, child, rfl, hchild, hbelow⟩ := get?_cons_eq_some.1 hinner
          rw [put_cons_of_lookup hchild, get?_directory_cons, lookup_putEntry, if_pos rfl]
          exact ih (Or.inr (kind?_eq_directory.2 ⟨_, inner, hbelow⟩))

/-- Putting a node changes no kind except at its place and below. -/
theorem kind?_put_of_not_isPrefix {root new : Node} {place other : Place}
    (h : ¬ place <+: other) : (put new root place).kind? other = root.kind? other := by
  induction place generalizing root other with
  | nil => exact absurd List.nil_prefix h
  | cons name rest ih =>
      by_cases hroot : root.kind = .directory
      · obtain ⟨listable, entries, rfl⟩ := kind_eq_directory.1 hroot
        cases other with
        | nil => simp [kind?, kind_put_cons]
        | cons key below =>
            by_cases hkey : key = name
            · subst hkey
              have hrest : ¬ rest <+: below := fun hprefix =>
                h (List.cons_prefix_cons.2 ⟨rfl, hprefix⟩)
              cases hchild : entries.lookup key with
              | none =>
                  have hne : rest ≠ [] := by
                    rintro rfl
                    exact hrest List.nil_prefix
                  rw [put_cons_of_missing hchild hne]
              | some child =>
                  rw [put_cons_of_lookup hchild, kind?, kind?, get?_directory_cons,
                    get?_directory_cons, lookup_putEntry, if_pos rfl, hchild]
                  exact ih hrest
            · -- another entry of the same directory stays as it is
              have hother : ∀ node, (Node.directory listable (putEntry entries name node)).kind?
                  (key :: below) = (Node.directory listable entries).kind? (key :: below) := by
                intro node
                rw [kind?, kind?, get?_directory_cons, get?_directory_cons, lookup_putEntry,
                  if_neg hkey]
              cases hchild : entries.lookup name with
              | some child =>
                  rw [put_cons_of_lookup hchild]
                  exact hother _
              | none =>
                  by_cases hrest : rest = []
                  · subst hrest
                    rw [put_singleton]
                    exact hother new
                  · rw [put_cons_of_missing hchild hrest]
      · rw [put_cons_of_kind hroot]

/-- **A file that is put changes one place only**, if there is room for it and no directory. -/
theorem kind?_put_file {root : Node} {place : Place} {content : List UInt8} {mode : Nat}
    (hroom : root.HasRoom place) (hplace : root.kind? place ≠ some .directory) :
    (put (.file content mode) root place).kind? =
      Function.update root.kind? place (some (.file content mode)) := by
  funext other
  by_cases hprefix : place <+: other
  · obtain ⟨rest, rfl⟩ := hprefix
    by_cases hrest : rest = []
    · subst hrest
      rw [List.append_nil, Function.update_self, kind?_eq_file]
      exact get?_put_self hroom
    · have hnew : (put (.file content mode) root place).kind? place ≠ some .directory := by
        rw [kind?, get?_put_self hroom]
        simp [kind]
      rw [Function.update_of_ne (by simp [hrest]), kind?, kind?, get?_append_eq_none hnew hrest,
        get?_append_eq_none hplace hrest]
  · rw [kind?_put_of_not_isPrefix hprefix, Function.update_of_ne]
    rintro rfl
    exact hprefix (List.prefix_refl _)

end Node

end Workbench
