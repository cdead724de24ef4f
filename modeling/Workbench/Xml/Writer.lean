/-
Writing elements.

The compact form puts nothing between tags but the character data of the element.  The
indented form puts every tag on a line of its own, two spaces deeper than its parent, and does
the same with character data, which it writes as it is unless it is blank throughout; an
element that has only text stays on one line.  Neither form writes the tail of the element it
is asked for, because a tail belongs to the parent.
-/
import Workbench.Text.Blank
import Workbench.Xml.Element
import Workbench.Xml.Reference

namespace Workbench.Xml

/-! ### Tags -/

/-- An attribute as it stands in a tag, with a space before it. -/
def attributeText (entry : String × String) : List Char :=
  ' ' :: entry.1.toList ++ ['=', '"'] ++ escapeValue entry.2.toList ++ ['"']

/-- An opening tag without its end. -/
def Fields.tagStart (fields : Fields) : List Char :=
  '<' :: fields.tag.toList ++ fields.attributes.flatMap attributeText

/-- A closing tag. -/
def Fields.tagEnd (fields : Fields) : List Char :=
  '<' :: '/' :: fields.tag.toList ++ ['>']

/-- The end of a tag that closes itself. -/
def singleEnd : List Char := ['/', '>']

/-! ### Compact form -/

/-- Character data as it stands between tags. -/
def dataText (data : Option String) : List Char :=
  escape (data.getD "").toList

mutual

/-- An element in compact form. -/
def Element.compactText : Element → List Char
  | ⟨fields, children⟩ =>
      if (fields.text.getD "").isEmpty && children.isEmpty then fields.tagStart ++ singleEnd
      else
        fields.tagStart ++ '>' :: dataText fields.text ++ compactAll children ++ fields.tagEnd

/-- Elements in compact form, each with its tail. -/
def compactAll : List Element → List Char
  | [] => []
  | e :: es => e.compactText ++ dataText e.tail ++ compactAll es

end

/-- The compact form of an element. -/
def Element.compact (element : Element) : String :=
  String.ofList element.compactText

/-! ### Indented form -/

/-- Character data that is not blank throughout. -/
def visible (data : Option String) : Option (List Char) :=
  (data.map String.toList).filter fun content => !Text.allBlank content

/-- What begins a line at a depth. -/
def indentation (depth : Nat) : List Char :=
  List.replicate (2 * depth) ' '

/-- A line at a depth. -/
def lineAt (depth : Nat) (content : List Char) : List Char :=
  indentation depth ++ content ++ ['\n']

/-- Character data on a line of its own, unless it is blank. -/
def dataLine (depth : Nat) (data : Option String) : List Char :=
  match visible data with
  | some content => lineAt depth (escape content)
  | none => []

mutual

/-- An element at a depth in indented form. -/
def Element.indentedText (depth : Nat) : Element → List Char
  | ⟨fields, []⟩ =>
      match visible fields.text with
      | some content => lineAt depth (fields.tagStart ++ '>' :: escape content ++ fields.tagEnd)
      | none => lineAt depth (fields.tagStart ++ singleEnd)
  | ⟨fields, child :: children⟩ =>
      lineAt depth (fields.tagStart ++ ['>']) ++ dataLine (depth + 1) fields.text ++
        indentedAll (depth + 1) (child :: children) ++ lineAt depth fields.tagEnd

/-- Elements at a depth in indented form, each with its tail. -/
def indentedAll (depth : Nat) : List Element → List Char
  | [] => []
  | e :: es => e.indentedText depth ++ dataLine depth e.tail ++ indentedAll depth es

end

/-- The declaration that a document begins with. -/
def declaration : List Char := "<?xml version=\"1.0\" ?>\n".toList

/-- The document with an element as its root, in indented form. -/
def Element.pretty (element : Element) : String :=
  String.ofList (declaration ++ element.indentedText 0)

end Workbench.Xml
