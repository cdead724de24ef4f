/-
Lists of values come back from the indented form.

A list of values is taken from the children with one tag, each of which contributes the values of
some attributes and then its text.  So it depends on the attributes and the texts of these children
and on nothing else (`valueList_eq_listed`), neither on their tails nor on what stands beside them,
which is where the indented form puts its blanks.

A child without children stays on one line and keeps its text between its tags as it is, or loses
it if it is blank throughout.  A child with children would be given a text of line breaks and
indentation; that is why the children of the tag in question may have none.
-/
import Mathlib.Data.List.Basic
import Workbench.Proofs.Xml.Indented

namespace Workbench.Xml

namespace Element

/-! ### What lists of values depend on -/

/-- What an element with a tag contributes to lists of values. -/
def contribution (tag : String) (element : Element) : Option (Attributes × Option String) :=
  if element.tag = tag then some (element.attributes, element.text) else none

/-- What the children with a tag contribute, in order. -/
def listed (element : Element) (tag : String) : List (Attributes × Option String) :=
  element.children.filterMap (contribution tag)

theorem valueList_eq_listed (element : Element) (tag : String) (names : List String) :
    element.valueList tag names
      = (element.listed tag).flatMap fun entry =>
          names.filterMap entry.1.get? ++ entry.2.toList := by
  obtain ⟨fields, children⟩ := element
  rw [valueList, listedValues, listed]
  induction children with
  | nil => rfl
  | cons child children ih =>
      rw [List.map_cons, List.filter_cons, List.filterMap_cons, contribution]
      by_cases htag : child.tag = tag
      · rw [if_pos (by simp [htag]), if_pos htag, List.flatMap_cons, List.flatMap_cons, ih]
        rfl
      · rw [if_neg (by simp [htag]), if_neg htag, ih]

/-! ### Changing texts -/

/-- An entry with its text seen through a view. -/
def viewEntry (view : Option String → Option String) (entry : Attributes × Option String) :
    Attributes × Option String :=
  (entry.1, view entry.2)

/-- The element without the blank texts of the children with a tag. -/
def withShownTexts (element : Element) (tag : String) : Element :=
  { element with
    children := element.children.map fun child =>
      if child.tag = tag then { child with text := shown child.text } else child }

theorem contribution_withText (view : Option String → Option String) (tag : String)
    (element : Element) (tail : Option String) (children : List Element) :
    contribution tag ⟨{ element.toFields with text := view element.text, tail := tail }, children⟩
      = (contribution tag element).map (viewEntry view) := by
  rw [contribution, contribution]
  by_cases htag : element.tag = tag
  · rw [if_pos htag, if_pos htag]
    rfl
  · rw [if_neg htag, if_neg htag]
    rfl

theorem listed_withShownTexts (element : Element) (tag : String) :
    (element.withShownTexts tag).listed tag = (element.listed tag).map (viewEntry shown) := by
  rw [listed, withShownTexts, List.filterMap_map, listed, List.map_filterMap]
  refine List.filterMap_congr fun child _ => ?_
  by_cases htag : child.tag = tag
  · rw [Function.comp_apply, if_pos htag]
    exact contribution_withText shown tag child child.tail child.children
  · rw [Function.comp_apply, if_neg htag, contribution, if_neg htag]
    rfl

theorem listed_mapData (view : Option String → Option String) (element : Element) (tag : String) :
    (element.mapData view).listed tag = (element.listed tag).map (viewEntry view) := by
  obtain ⟨fields, children⟩ := element
  rw [mapData_mk, listed, List.filterMap_map, listed, List.map_filterMap]
  refine List.filterMap_congr fun child _ => ?_
  obtain ⟨childFields, grandchildren⟩ := child
  rw [Function.comp_apply, mapData_mk]
  exact contribution_withText view tag ⟨childFields, grandchildren⟩ _ _

/-! ### The indented form -/

/-- The children with a tag have no children of their own. -/
def Flat (element : Element) (tag : String) : Prop :=
  ∀ child ∈ element.children, child.tag = tag → child.children = []

theorem tag_indented (element : Element) (depth : Nat) :
    (element.indented depth).tag = element.tag := by
  obtain ⟨fields, children⟩ := element
  cases children with
  | nil => rw [indented]
  | cons child children => rw [indented]

/-- Tails do not count in what the laid out children contribute. -/
theorem filterMap_siblings (tag : String) (depth : Nat) (children : List Element) :
    (indentedSiblings depth children).filterMap (contribution tag)
      = children.filterMap fun child => contribution tag (child.indented (depth + 1)) := by
  induction children with
  | nil => rfl
  | cons child children ih =>
      rw [indentedSiblings, List.filterMap_cons, List.filterMap_cons, ih]
      rfl

/-- A child without children contributes what it shows. -/
theorem contribution_indented {tag : String} {child : Element}
    (h : child.tag = tag → child.children = []) (depth : Nat) :
    contribution tag (child.indented depth)
      = (contribution tag child).map (viewEntry shown) := by
  by_cases htag : child.tag = tag
  · obtain ⟨fields, children⟩ := child
    have hnil : children = [] := h htag
    rw [hnil, indented, map_visible_eq_shown]
    exact contribution_withText shown tag ⟨fields, []⟩ fields.tail []
  · rw [contribution, contribution, tag_indented, if_neg htag, if_neg htag]
    rfl

theorem listed_indented {element : Element} {tag : String} (h : element.Flat tag) (depth : Nat) :
    (element.indented depth).listed tag = (element.listed tag).map (viewEntry shown) := by
  obtain ⟨fields, children⟩ := element
  rw [listed, listed, List.map_filterMap]
  cases children with
  | nil =>
      rw [indented]
      rfl
  | cons child children =>
      rw [indented, filterMap_siblings]
      exact List.filterMap_congr fun other hother => contribution_indented (h other hother) _

/-- What a flat element is read back with is what it shows. -/
theorem listed_reread_indented {element : Element} {tag : String} (h : element.Flat tag) :
    (element.indented 0).reread.listed tag = (element.withShownTexts tag).listed tag := by
  have hview : viewEntry present ∘ viewEntry shown = viewEntry shown :=
    funext fun entry => congrArg (Prod.mk entry.1) (present_shown entry.2)
  calc (element.indented 0).reread.listed tag
      = ((element.indented 0).mapData present).listed tag := rfl
    _ = (element.listed tag).map (viewEntry shown) := by
        rw [listed_mapData, listed_indented h, List.map_map, hview]
    _ = (element.withShownTexts tag).listed tag := (listed_withShownTexts element tag).symm

end Element

/-- **Lists of values come back from the indented form** as they were without the blank texts of
the children that they are taken from: every other text and every attribute is what it was, whatever
stands around these children. -/
theorem values_read_pretty (element : Element) (h : element.Clean) :
    ∃ result, read element.pretty = .ok result ∧
      (∀ tag, element.Flat tag →
        result.listed tag = (element.withShownTexts tag).listed tag ∧
          ∀ names, result.valueList tag names
            = (element.withShownTexts tag).valueList tag names) ∧
      (element.Flat "option" →
        result.options = (element.withShownTexts "option").options) := by
  have hvalues : ∀ tag, element.Flat tag → ∀ names,
      (element.indented 0).reread.valueList tag names
        = (element.withShownTexts tag).valueList tag names := by
    intro tag hflat names
    rw [Element.valueList_eq_listed, Element.valueList_eq_listed,
      Element.listed_reread_indented hflat]
  refine ⟨(element.indented 0).reread, read_pretty_eq h, fun tag hflat => ?_, fun hflat => ?_⟩
  · exact ⟨Element.listed_reread_indented hflat, hvalues tag hflat⟩
  · exact hvalues "option" hflat ["name"]

/-- Options with blanks and line breaks in their texts, a blank one, and other children among them
that are not flat. -/
def settings : Element :=
  ⟨⟨"settings", [], some " around ", none⟩,
    [⟨⟨"option", [("name", "-heap\n")], some "  1200M\n & more ", some "tail"⟩, []⟩,
      ⟨⟨"run", [], none, none⟩, [⟨⟨"option", [("name", "inner")], none, none⟩, []⟩]⟩,
      ⟨⟨"option", [("value", "2"), ("name", "")], some "\u2003\n", none⟩, []⟩,
      ⟨⟨"option", [], some "<x>", some "\t"⟩, []⟩]⟩

theorem values_read_pretty_settings :
    settings.Clean ∧ settings.Flat "option" ∧
      ∃ result, read settings.pretty = .ok result ∧
        result.options = ["-heap\n", "  1200M\n & more ", "", "<x>"] ∧
        result.valueList "option" ["value"] = ["  1200M\n & more ", "2", "<x>"] := by
  have h : settings.Clean := by decide
  have hflat : settings.Flat "option" := by simp [Element.Flat, settings]
  obtain ⟨result, hread, hvalues, hoptions⟩ := values_read_pretty settings h
  refine ⟨h, hflat, result, hread, ?_, ?_⟩
  · rw [hoptions hflat]
    decide
  · rw [(hvalues "option" hflat).2]
    decide

end Workbench.Xml
