/-
Trees of elements as statements speak about them.

An element holds its children in a list, so an induction over elements needs a hypothesis for
every member of that list.  `Element.treeInduction` is that principle; with it, facts about the
functions that walk along children are plain inductions over lists.

Statements ask three things of a tree.  `Every` says that a property of fields holds throughout,
and is read off the outline, so that it can be evaluated.  `mapData` changes all character data in
one way and leaves the rest alone; the forms that documents are compared in are instances of it.
`dataBeside` collects the data that stands next to elements, where a layout may put its blanks.
-/
import Workbench.Proofs.Xml.Tag
import Workbench.Text.Blank

namespace Workbench.Xml

namespace Element

/-! ### Induction -/

/-- What holds of an element as soon as it holds of its children holds of all elements. -/
@[elab_as_elim]
theorem treeInduction {motive : Element → Prop}
    (mk : ∀ fields children, (∀ child ∈ children, motive child) → motive ⟨fields, children⟩) :
    ∀ element, motive element
  | ⟨fields, children⟩ => mk fields children fun child _ => treeInduction mk child

/-! ### A property throughout a tree -/

theorem outlineAll_eq_flatMap (depth : Nat) (children : List Element) :
    outlineAll depth children = children.flatMap (outlineAt depth) := by
  induction children with
  | nil => rfl
  | cons child children ih => rw [outlineAll, ih, List.flatMap_cons]

/-- A property of the fields of an element and of everything below it. -/
def Every (P : Fields → Prop) (element : Element) : Prop :=
  ∀ row ∈ element.outline, P row.2

instance (P : Fields → Prop) [DecidablePred P] (element : Element) :
    Decidable (element.Every P) :=
  inferInstanceAs (Decidable (∀ row ∈ element.outline, P row.2))

/-- The depth at which an outline begins does not matter to what its fields are. -/
theorem forall_outlineAt_iff (P : Fields → Prop) (element : Element) :
    ∀ depth, (∀ row ∈ outlineAt depth element, P row.2) ↔ element.Every P := by
  induction element using treeInduction with
  | mk fields children ih =>
      have hchildren : ∀ depth, (∀ row ∈ outlineAt depth ⟨fields, children⟩, P row.2) ↔
          P fields ∧ ∀ child ∈ children, child.Every P := by
        intro depth
        rw [outlineAt, outlineAll_eq_flatMap, List.forall_mem_cons, List.forall_mem_flatMap]
        exact and_congr_right fun _ =>
          forall_congr' fun child => forall_congr' fun hchild => ih child hchild (depth + 1)
      intro depth
      exact (hchildren depth).trans (hchildren 0).symm

/-- A property holds throughout if it holds at the root and throughout the children. -/
theorem every_mk {P : Fields → Prop} {fields : Fields} {children : List Element} :
    Every P ⟨fields, children⟩ ↔ P fields ∧ ∀ child ∈ children, child.Every P := by
  unfold Every
  rw [outline, outlineAt, outlineAll_eq_flatMap, List.forall_mem_cons, List.forall_mem_flatMap]
  exact and_congr_right fun _ =>
    forall_congr' fun child => forall_congr' fun _ => forall_outlineAt_iff P child 1

theorem every_iff {P : Fields → Prop} {element : Element} :
    element.Every P ↔ P element.toFields ∧ ∀ child ∈ element.children, child.Every P := by
  cases element
  exact every_mk

end Element

/-! ### Changing character data -/

/-- Fields with `f` applied to text and tail. -/
def Fields.mapData (f : Option String → Option String) (fields : Fields) : Fields :=
  { fields with text := f fields.text, tail := f fields.tail }

namespace Element

mutual

/-- The element with `f` applied to all texts and tails. -/
def mapData (f : Option String → Option String) : Element → Element
  | ⟨fields, children⟩ => ⟨fields.mapData f, mapDataAll f children⟩

/-- Elements with `f` applied to all texts and tails. -/
def mapDataAll (f : Option String → Option String) : List Element → List Element
  | [] => []
  | e :: es => e.mapData f :: mapDataAll f es

end

/-- The element as it stands alone: what follows its closing tag is not part of it. -/
def withoutTail (element : Element) : Element :=
  { element with tail := none }

theorem mapDataAll_eq_map (f : Option String → Option String) (children : List Element) :
    mapDataAll f children = children.map (mapData f) := by
  induction children with
  | nil => rfl
  | cons child children ih => rw [mapDataAll, ih, List.map_cons]

theorem mapData_mk (f : Option String → Option String) (fields : Fields)
    (children : List Element) :
    mapData f ⟨fields, children⟩ = ⟨fields.mapData f, children.map (mapData f)⟩ := by
  rw [mapData, mapDataAll_eq_map]

theorem mapData_withTail (f : Option String → Option String) (element : Element)
    (tail : Option String) :
    mapData f { element with tail := tail } = { (mapData f element) with tail := f tail } := by
  cases element
  simp only [mapData_mk]
  rfl

/-- A tail that is not part of the element makes no difference to a change of it. -/
theorem withoutTail_mapData_withoutTail (f : Option String → Option String) (element : Element) :
    (element.withoutTail.mapData f).withoutTail = (element.mapData f).withoutTail := by
  show (mapData f { element with tail := none }).withoutTail = _
  rw [mapData_withTail]
  rfl

/-- Two changes one after the other are one change. -/
theorem mapData_mapData (f g : Option String → Option String) (element : Element) :
    (element.mapData g).mapData f = element.mapData (f ∘ g) := by
  induction element using treeInduction with
  | mk fields children ih =>
      rw [mapData_mk, mapData_mk, mapData_mk, List.map_map]
      exact congrArg (Element.mk _) (List.map_congr_left ih)

/-- An element whose names are clean throughout. -/
def Clean (element : Element) : Prop :=
  element.Every Fields.Clean

instance (element : Element) : Decidable element.Clean :=
  inferInstanceAs (Decidable (element.Every Fields.Clean))

end Element

/-! ### Data beside elements -/

namespace Element

mutual

/-- The character data that stands beside elements: the texts of all elements with children, and
the tails of all children. -/
def dataBeside : Element → List (Option String)
  | ⟨_, []⟩ => []
  | ⟨fields, child :: children⟩ => fields.text :: dataBesideAll (child :: children)

/-- The data beside the elements of a list of children. -/
def dataBesideAll : List Element → List (Option String)
  | [] => []
  | e :: es => e.dataBeside ++ e.tail :: dataBesideAll es

end

theorem dataBesideAll_eq_flatMap (children : List Element) :
    dataBesideAll children = children.flatMap fun child => child.dataBeside ++ [child.tail] := by
  induction children with
  | nil => rfl
  | cons child children ih =>
      rw [dataBesideAll, ih, List.flatMap_cons, List.append_assoc, List.singleton_append]

theorem mem_dataBeside_text {fields : Fields} {children : List Element} (h : children ≠ []) :
    fields.text ∈ dataBeside ⟨fields, children⟩ := by
  cases children with
  | nil => exact absurd rfl h
  | cons child children =>
      rw [dataBeside]
      exact List.mem_cons_self

theorem mem_dataBeside_child {fields : Fields} {children : List Element} {child : Element}
    (h : child ∈ children) {data : Option String}
    (hdata : data ∈ child.dataBeside ++ [child.tail]) :
    data ∈ dataBeside ⟨fields, children⟩ := by
  have hall : data ∈ dataBesideAll children := by
    rw [dataBesideAll_eq_flatMap]
    exact List.mem_flatMap.2 ⟨child, h, hdata⟩
  cases children with
  | nil => cases h
  | cons first others =>
      rw [dataBeside]
      exact List.mem_cons_of_mem _ hall

end Element

/-! ### Views of character data -/

/-- Data of blanks only, or none. -/
def Blank (data : Option String) : Prop :=
  Text.allBlank (data.getD "").toList = true

instance (data : Option String) : Decidable (Blank data) :=
  inferInstanceAs (Decidable (Text.allBlank (data.getD "").toList = true))

/-- Data without what is blank throughout. -/
def shown (data : Option String) : Option String :=
  data.filter fun content => !Text.allBlank content.toList

theorem shown_of_blank {data : Option String} (h : Blank data) : shown data = none := by
  cases data with
  | none => rfl
  | some content =>
      have hblank : Text.allBlank content.toList = true := h
      rw [shown, Option.filter_some, hblank]
      rfl

/-- Data as it comes back from a document: nothing stands for the empty text. -/
def present (data : Option String) : Option String :=
  data.filter fun content => content != ""

/-- What is shown is not empty. -/
theorem ne_empty_and_not_blank (content : String) :
    (content != "" && !Text.allBlank content.toList) = !Text.allBlank content.toList := by
  by_cases hempty : content = ""
  · subst hempty
    decide
  · simp [hempty]

theorem shown_present (data : Option String) : shown (present data) = shown data := by
  rw [shown, shown, present, Option.filter_filter]
  simp only [ne_empty_and_not_blank]

theorem present_shown (data : Option String) : present (shown data) = shown data := by
  rw [present, shown, Option.filter_filter]
  simp only [Bool.and_comm, ne_empty_and_not_blank]

theorem shown_shown (data : Option String) : shown (shown data) = shown data := by
  rw [shown, shown, Option.filter_filter]
  simp only [Bool.and_self]

/-- Data without the blanks around it, and without what is blank altogether. -/
def trimmed (data : Option String) : Option String :=
  present (data.map fun content => String.ofList (Text.trim content.toList))

end Workbench.Xml
