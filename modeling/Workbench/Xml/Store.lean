/-
Elements that are shared.

In a store an element is a cell: its fields and the references to its children.  One cell may
be a child of several, so a change of it shows wherever it is referred to, and a copy of a cell
refers to the same children.  References are positions in the list of cells; cells are only
ever added at the end, so a reference stays good.

The tree below a cell is unfolded with an explicit bound on its depth.  In a store without
cycles no path has more cells than the store, so that number of cells is a bound that suffices.
-/
import Workbench.Xml.Element

namespace Workbench.Xml

/-- A reference to a cell. -/
abbrev Ref := Nat

/-- An element with references to its children. -/
structure Cell extends Fields where
  children : List Ref
deriving DecidableEq, Repr, Inhabited

/-- A cell without children. -/
def Cell.leaf (fields : Fields) : Cell :=
  ⟨fields, []⟩

/-- Shared elements. -/
structure Store where
  cells : List Cell
deriving DecidableEq, Repr, Inhabited

namespace Store

/-- No elements. -/
def empty : Store := ⟨[]⟩

/-- The cell behind a reference. -/
def get? (store : Store) (ref : Ref) : Option Cell :=
  store.cells[ref]?

/-- The reference that the next new cell gets. -/
def next (store : Store) : Ref :=
  store.cells.length

/-- A store with one more cell, behind the reference `store.next`. -/
def push (store : Store) (cell : Cell) : Store :=
  ⟨store.cells ++ [cell]⟩

/-- Change the cell behind a reference. -/
def update (store : Store) (ref : Ref) (f : Cell → Cell) : Store :=
  ⟨store.cells.modify ref f⟩

/-! ### Adding elements -/

mutual

/-- Add an element with everything below it, children first. -/
def add (store : Store) : Element → Ref × Store
  | ⟨fields, children⟩ =>
      let (refs, store) := store.addAll children
      (store.next, store.push ⟨fields, refs⟩)

/-- Add elements one after the other. -/
def addAll (store : Store) : List Element → List Ref × Store
  | [] => ([], store)
  | e :: es =>
      let (ref, store) := store.add e
      let (refs, store) := store.addAll es
      (ref :: refs, store)

end

/-- Add a copy of a cell: its tag, its attributes and the same children, without character
data. -/
def copy (store : Store) (cell : Cell) : Store :=
  store.push ⟨Fields.plain cell.tag cell.attributes, cell.children⟩

/-! ### Changing elements -/

/-- Give an attribute a value. -/
def putAttribute (store : Store) (ref : Ref) (name value : String) : Store :=
  store.update ref fun cell => { cell with attributes := cell.attributes.put name value }

/-- Replace the text. -/
def putText (store : Store) (ref : Ref) (text : Option String) : Store :=
  store.update ref fun cell => { cell with text := text }

/-- Replace the tail. -/
def putTail (store : Store) (ref : Ref) (tail : Option String) : Store :=
  store.update ref fun cell => { cell with tail := tail }

/-- Replace the tag. -/
def putTag (store : Store) (ref : Ref) (tag : String) : Store :=
  store.update ref fun cell => { cell with tag := tag }

/-- Add a reference behind the children. -/
def append (store : Store) (ref child : Ref) : Store :=
  store.update ref fun cell => { cell with children := cell.children ++ [child] }

/-! ### Looking at elements -/

/-- The references to the children with a tag, in order. -/
def findAll (store : Store) (cell : Cell) (tag : String) : List Ref :=
  cell.children.filter fun child => (store.get? child).any fun found => found.tag == tag

/-- The values of the children with a tag. -/
def valueList (store : Store) (cell : Cell) (tag : String) (names : List String) : List String :=
  listedValues tag names ((cell.children.filterMap store.get?).map Cell.toFields)

/-- Options are children tagged `option` with a name and a text. -/
def options (store : Store) (cell : Cell) : List String :=
  store.valueList cell "option" ["name"]

/-- The element behind a reference, if nothing below it is deeper than `depth` cells. -/
def tree? (store : Store) : Nat → Ref → Option Element
  | 0, _ => none
  | depth + 1, ref => do
      let cell ← store.get? ref
      let children ← cell.children.mapM (store.tree? depth)
      pure ⟨cell.toFields, children⟩

/-- The element behind a reference; `none` if a cycle can be reached from it. -/
def view (store : Store) (ref : Ref) : Option Element :=
  store.tree? store.cells.length ref

end Store

end Workbench.Xml
