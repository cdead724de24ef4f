/-
The graph of shared elements.

A store is a graph: an edge leads from a cell to each of its children.  The tree below a cell is
unfolded with a bound on its depth, and the bound runs out only along a path of as many cells.
Where no path comes back to where it has been, a path has no more cells than the store, so the
number of cells is a bound that suffices (`exists_unfolds`), and a larger one changes nothing.

The tree below a cell depends on the cells that can be reached from it and on no others
(`tree?_congr`).
-/
import Mathlib
import Workbench.Proofs.Xml.Action

namespace Workbench.Xml

namespace Store

/-- An element and one of its children. -/
def Child (store : Store) (parent child : Ref) : Prop :=
  ∃ cell, store.get? parent = some cell ∧ child ∈ cell.children

/-- One element can be reached from another by steps to a child, or is the other. -/
def Reaches (store : Store) (ref other : Ref) : Prop :=
  Relation.ReflTransGen store.Child ref other

/-- Every child is an element of the store. -/
def Closed (store : Store) : Prop :=
  ∀ parent child, store.Child parent child → child < store.next

/-- No element can be reached from itself by one step or more. -/
def Acyclic (store : Store) : Prop :=
  ∀ ref, ¬ Relation.TransGen store.Child ref ref

theorem child_of_mem {store : Store} {parent child : Ref} {cell : Cell}
    (hcell : store.get? parent = some cell) (h : child ∈ cell.children) :
    store.Child parent child :=
  ⟨cell, hcell, h⟩

theorem mem_of_child {store : Store} {parent child : Ref} {cell : Cell}
    (hcell : store.get? parent = some cell) (h : store.Child parent child) :
    child ∈ cell.children := by
  obtain ⟨found, hfound, hmem⟩ := h
  rw [hcell] at hfound
  cases hfound
  exact hmem

/-- What can be reached from an element is the element, or can be reached from one of its children. -/
theorem not_reaches {store : Store} {ref other : Ref} {cell : Cell}
    (hcell : store.get? ref = some cell) (hne : ref ≠ other)
    (h : ∀ child ∈ cell.children, ¬ store.Reaches child other) : ¬ store.Reaches ref other := by
  intro hreaches
  rcases Relation.ReflTransGen.cases_head hreaches with heq | ⟨child, hchild, hrest⟩
  · exact hne heq
  · exact h child (mem_of_child hcell hchild) hrest

/-! ### Unfolding -/

section MapM

variable {α β : Type} {f g : α → Option β}

theorem exists_eq_none_of_mapM {as : List α} (h : as.mapM f = none) : ∃ a ∈ as, f a = none := by
  induction as with
  | nil => cases h
  | cons a as ih =>
      cases ha : f a with
      | none => exact ⟨a, by simp, ha⟩
      | some b =>
          cases has : as.mapM f with
          | none =>
              obtain ⟨c, hc, hnone⟩ := ih has
              exact ⟨c, by simp [hc], hnone⟩
          | some bs => simp [List.mapM_cons, ha, has] at h

theorem mapM_mono {as : List α} (h : ∀ a ∈ as, ∀ b, f a = some b → g a = some b) :
    ∀ {bs : List β}, as.mapM f = some bs → as.mapM g = some bs := by
  induction as with
  | nil =>
      intro bs hbs
      exact hbs
  | cons a as ih =>
      intro bs hbs
      simp only [List.mapM_cons, Option.bind_eq_bind, Option.bind_eq_some_iff, Option.pure_def,
        Option.some.injEq] at hbs ⊢
      obtain ⟨b, hb, rest, hrest, rfl⟩ := hbs
      exact ⟨b, h a (by simp) b hb, rest, ih (fun c hc => h c (by simp [hc])) hrest, rfl⟩

theorem mapM_congr {as : List α} (h : ∀ a ∈ as, f a = g a) : as.mapM f = as.mapM g := by
  induction as with
  | nil => rfl
  | cons a as ih =>
      rw [List.mapM_cons, List.mapM_cons, h a (by simp), ih fun c hc => h c (by simp [hc])]

end MapM

theorem tree?_succ {store : Store} {ref : Ref} {cell : Cell} (h : store.get? ref = some cell)
    (depth : Nat) : store.tree? (depth + 1) ref
      = (cell.children.mapM (store.tree? depth)).map fun children => ⟨cell.toFields, children⟩ := by
  rw [tree?, h]
  cases hall : cell.children.mapM (store.tree? depth) with
  | none => simp [hall]
  | some children => simp [hall]

theorem tree?_mono {store : Store} {depth : Nat} : ∀ {ref : Ref} {element : Element},
    store.tree? depth ref = some element → store.tree? (depth + 1) ref = some element := by
  induction depth with
  | zero =>
      intro ref element h
      cases h
  | succ depth ih =>
      intro ref element h
      cases hcell : store.get? ref with
      | none => simp [tree?, hcell] at h
      | some cell =>
          rw [tree?_succ hcell] at h ⊢
          obtain ⟨children, hchildren, rfl⟩ := Option.map_eq_some_iff.1 h
          rw [mapM_mono (fun child _ element => ih) hchildren]
          rfl

theorem tree?_mono_of_le {store : Store} {depth more : Nat} (hle : depth ≤ more) {ref : Ref}
    {element : Element} (h : store.tree? depth ref = some element) :
    store.tree? more ref = some element := by
  induction hle with
  | refl => exact h
  | step _ ih => exact tree?_mono ih

/-- **A tree depends on what can be reached from its root.** -/
theorem tree?_congr {store later : Store} {depth : Nat} : ∀ {ref : Ref},
    (∀ other, store.Reaches ref other → later.get? other = store.get? other) →
      later.tree? depth ref = store.tree? depth ref := by
  induction depth with
  | zero =>
      intro ref h
      rfl
  | succ depth ih =>
      intro ref h
      have hroot : later.get? ref = store.get? ref := h ref .refl
      cases hcell : store.get? ref with
      | none => simp [tree?, hroot, hcell]
      | some cell =>
          have hchildren : ∀ child ∈ cell.children,
              later.tree? depth child = store.tree? depth child := by
            intro child hchild
            exact ih fun other hother => h other (.head (child_of_mem hcell hchild) hother)
          rw [tree?_succ hcell, tree?_succ (hroot.trans hcell), mapM_congr hchildren]

/-! ### Paths

Where the bound runs out there is a path of that many steps. -/

theorem exists_path {store : Store} (hclosed : store.Closed) {depth : Nat} : ∀ {ref : Ref},
    ref < store.next → store.tree? depth ref = none →
      ∃ path : List Ref, path.length = depth ∧ (ref :: path).IsChain store.Child := by
  induction depth with
  | zero =>
      intro ref _ _
      exact ⟨[], rfl, List.isChain_singleton ref⟩
  | succ depth ih =>
      intro ref hlt h
      obtain ⟨cell, hcell⟩ := get?_of_lt hlt
      rw [tree?_succ hcell] at h
      obtain ⟨child, hmem, hnone⟩ := exists_eq_none_of_mapM (Option.map_eq_none_iff.1 h)
      have hchild := child_of_mem hcell hmem
      obtain ⟨path, hlength, hpath⟩ := ih (hclosed ref child hchild) hnone
      exact ⟨child :: path, by rw [List.length_cons, hlength],
        List.isChain_cons_cons.2 ⟨hchild, hpath⟩⟩

theorem lt_of_mem_path {store : Store} (hclosed : store.Closed) {path : List Ref} :
    ∀ {ref : Ref}, ref < store.next → (ref :: path).IsChain store.Child →
      ∀ other ∈ ref :: path, other < store.next := by
  induction path with
  | nil =>
      intro ref hlt _
      exact List.forall_mem_singleton.2 hlt
  | cons next path ih =>
      intro ref hlt hpath
      obtain ⟨hchild, hrest⟩ := List.isChain_cons_cons.1 hpath
      exact List.forall_mem_cons.2 ⟨hlt, ih (hclosed ref next hchild) hrest⟩

/-- A path without cycles visits every element at most once. -/
theorem nodup_of_path {store : Store} (hacyclic : store.Acyclic) {path : List Ref}
    (h : path.IsChain store.Child) : path.Nodup := by
  have hsteps : path.IsChain (Relation.TransGen store.Child) := h.imp fun _ _ => .single
  refine (List.isChain_iff_pairwise.1 hsteps).imp ?_
  rintro a b hab rfl
  exact hacyclic a hab

/-! ### Enough depth -/

/-- The element behind a reference, however deep one looks: the number of cells is deep enough, and
no depth gives another element. -/
structure Unfolds (store : Store) (ref : Ref) (element : Element) : Prop where
  view : store.view ref = some element
  deeper : ∀ depth, store.cells.length ≤ depth → store.tree? depth ref = some element
  unique : ∀ depth other, store.tree? depth ref = some other → other = element

theorem unfolds_of_view {store : Store} {ref : Ref} {element : Element}
    (h : store.view ref = some element) : store.Unfolds ref element := by
  refine ⟨h, fun depth hle => tree?_mono_of_le hle h, fun depth other hother => ?_⟩
  have hboth := tree?_mono_of_le (Nat.le_max_left store.cells.length depth) h
  rw [tree?_mono_of_le (Nat.le_max_right store.cells.length depth) hother] at hboth
  exact Option.some.inj hboth

/-- **Without cycles every element can be unfolded.** -/
theorem exists_unfolds {store : Store} (hclosed : store.Closed) (hacyclic : store.Acyclic)
    {ref : Ref} (hlt : ref < store.next) : ∃ element, store.Unfolds ref element := by
  cases hview : store.view ref with
  | some element => exact ⟨element, unfolds_of_view hview⟩
  | none =>
      -- The path along which the bound has run out has one cell more than there are.
      obtain ⟨path, hlength, hpath⟩ := exists_path hclosed hlt hview
      have hsub : ref :: path ⊆ List.range store.next := fun other hother =>
        List.mem_range.2 (lt_of_mem_path hclosed hlt hpath other hother)
      have hle := (List.subperm_of_subset (nodup_of_path hacyclic hpath) hsub).length_le
      rw [List.length_cons, List.length_range, hlength] at hle
      exact absurd hle (Nat.not_succ_le_self _)

end Store

end Workbench.Xml
