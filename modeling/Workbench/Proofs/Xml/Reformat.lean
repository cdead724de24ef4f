/-
Writing again what has been read.

The indented form drops what is blank, so it shows an element through the view `shown` and no
further: changes of the data that this view does not tell apart leave it as it is
(`pretty_mapData`).  Two things happen to data on the way through a document.  Empty data is lost,
which the view never shows; and the indented form puts line breaks and indentation around the data
beside elements, which it does not show either as long as there is nothing else.

So an element that is read from its compact form has the same indented form as before, without any
condition on its data, and an element that is read from its indented form has it if the data beside
its elements is blank.  Data inside of elements without children may be anything in both cases.
-/
import Workbench.Proofs.Xml.Indented

namespace Workbench.Xml

/-! ### What the indented form depends on -/

theorem visible_eq_of_shown {data other : Option String} (h : shown data = shown other) :
    visible data = visible other := by
  have hmap : ∀ data, visible data = (shown data).map String.toList := by
    intro data
    rw [← map_visible_eq_shown, Option.map_map]
    have hid : String.toList ∘ String.ofList = id := funext fun _ => String.toList_ofList
    rw [hid, Option.map_id_fun, id]
  rw [hmap, hmap, h]

theorem dataLine_eq_of_shown {data other : Option String} (h : shown data = shown other)
    (depth : Nat) : dataLine depth data = dataLine depth other := by
  rw [dataLine, dataLine, visible_eq_of_shown h]

theorem indentedText_withTail (depth : Nat) (element : Element) (tail : Option String) :
    Element.indentedText depth { element with tail := tail } = element.indentedText depth := by
  obtain ⟨fields, children⟩ := element
  cases children with
  | nil => rfl
  | cons child children => rfl

section View

variable {view : Option String → Option String}

theorem tail_mapData (element : Element) : (element.mapData view).tail = view element.tail := by
  cases element
  rw [Element.mapData_mk]
  rfl

theorem indentedAll_mapData (hview : ∀ data, shown (view data) = shown data) (depth : Nat)
    {children : List Element}
    (h : ∀ child ∈ children, (child.mapData view).indentedText depth = child.indentedText depth) :
    indentedAll depth (children.map (Element.mapData view)) = indentedAll depth children := by
  induction children with
  | nil => rfl
  | cons child children ih =>
      have hothers := ih fun other hother => h other (by simp [hother])
      rw [List.map_cons, indentedAll, indentedAll, h child (by simp), tail_mapData,
        dataLine_eq_of_shown (hview child.tail), hothers]

theorem indentedText_mapData (hview : ∀ data, shown (view data) = shown data)
    (element : Element) :
    ∀ depth, (element.mapData view).indentedText depth = element.indentedText depth := by
  induction element using Element.treeInduction with
  | mk fields children ih =>
      intro depth
      have htext : visible (view fields.text) = visible fields.text :=
        visible_eq_of_shown (hview fields.text)
      rw [Element.mapData_mk]
      cases children with
      | nil =>
          rw [List.map_nil, Element.indentedText, Element.indentedText]
          simp only [Fields.mapData, htext]
          rfl
      | cons child children =>
          have hall := indentedAll_mapData hview (depth + 1)
            fun other hother => ih other hother (depth + 1)
          have hline := dataLine_eq_of_shown (hview fields.text) (depth + 1)
          rw [List.map_cons] at hall
          rw [List.map_cons, Element.indentedText, Element.indentedText, hall]
          simp only [Fields.mapData, hline]
          rfl

/-- **The indented form is the same after every change of data that is not shown.** -/
theorem pretty_mapData (hview : ∀ data, shown (view data) = shown data) (element : Element) :
    (element.mapData view).pretty = element.pretty := by
  rw [Element.pretty, indentedText_mapData hview, Element.pretty]

end View

/-- Elements that show the same have the same indented form. -/
theorem pretty_eq_of_shown {element other : Element}
    (h : element.mapData shown = other.mapData shown) : element.pretty = other.pretty := by
  rw [← pretty_mapData shown_shown element, h, pretty_mapData shown_shown other]

/-! ### On the way through a document -/

theorem pretty_reread (element : Element) : element.reread.pretty = element.pretty := by
  have htail : element.reread.pretty = (element.mapData present).pretty := by
    rw [Element.pretty, Element.pretty]
    exact congrArg (fun text => String.ofList (declaration ++ text))
      (indentedText_withTail 0 (element.mapData present) none)
  rw [htail, pretty_mapData shown_present]

/-- **The indented form of an element is that of what its compact form is read back as.** -/
theorem pretty_read_compact (element : Element) (h : element.Clean) :
    (read element.compact).map Element.pretty = .ok element.pretty := by
  rw [read, parse_compact h]
  show Except.ok element.reread.pretty = _
  rw [pretty_reread]

theorem pretty_read_compact_mixed :
    mixed.Clean ∧ (read mixed.compact).map Element.pretty = .ok mixed.pretty :=
  have h : mixed.Clean := by decide
  ⟨h, pretty_read_compact mixed h⟩

theorem seesThrough_shown {data : Option String} (h : Blank data) : SeesThrough shown data := by
  intro depth next
  have hvisible : visible data = visible none := visible_eq_of_shown (shown_of_blank h)
  rw [shown_of_blank h, shown_of_blank (blank_spaced depth next hvisible)]

/-- **The indented form is read back as an element with the same indented form** if only elements
without children hold more than blanks. -/
theorem pretty_read_pretty (element : Element) (h : element.Clean)
    (hbeside : ∀ data ∈ element.dataBeside, Blank data) :
    (read element.pretty).map Element.pretty = .ok element.pretty := by
  have hshown := mapData_indented shown_shown element
    (fun data hdata => seesThrough_shown (hbeside data hdata)) 0
  rw [read_pretty_eq h]
  show Except.ok (element.indented 0).reread.pretty = _
  rw [pretty_reread, pretty_eq_of_shown hshown]

/-- Line breaks and blanks inside of data, indentation of another kind, and blank data of each
sort. -/
def records : Element :=
  ⟨⟨"result", [("tool", " a<b>\n")], some "\n\t", some "gone"⟩,
    [⟨⟨"column", [("title", "status")], some "  true\n & more\n", some "\n\t"⟩, []⟩,
      ⟨⟨"run", [], none, some ""⟩, [⟨⟨"column", [], some "\u2003", some "\u00a0"⟩, []⟩]⟩]⟩

theorem pretty_read_pretty_records :
    records.Clean ∧ (∀ data ∈ records.dataBeside, Blank data) ∧
      (read records.pretty).map Element.pretty = .ok records.pretty :=
  have h : records.Clean := by decide
  have hbeside : ∀ data ∈ records.dataBeside, Blank data := by decide
  ⟨h, hbeside, pretty_read_pretty records h hbeside⟩

end Workbench.Xml
