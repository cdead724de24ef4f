/-
Elements of a document.

An element has a tag, attributes in the order in which their names were first put, and its
children.  Character data is kept beside the tags it follows: the text of an element stands
before its first child, and the tail of an element stands behind its closing tag, inside its
parent.  The fields that an element does not share with its children are a structure of their
own, because the store of shared elements (`Xml.Store`) keeps the same fields.
-/
import Workbench.Xml.Fault

namespace Workbench.Xml

/-- Names with values, in order; no name occurs twice. -/
abbrev Attributes := List (String × String)

/-- The value of an attribute. -/
def Attributes.get? (attributes : Attributes) (name : String) : Option String :=
  attributes.lookup name

/-- Give an attribute a value.  A name that is there keeps its place; a new one comes last. -/
def Attributes.put (attributes : Attributes) (name value : String) : Attributes :=
  match attributes with
  | [] => [(name, value)]
  | entry :: rest =>
      if entry.1 = name then (name, value) :: rest else entry :: Attributes.put rest name value

/-- Equality of attributes, in which order does not count: there are as many, and each name
has the same value. -/
def Attributes.agree (left right : Attributes) : Bool :=
  left.length == right.length && left.all fun entry => right.get? entry.1 == some entry.2

/-- What an element has apart from its children. -/
structure Fields where
  tag : String
  attributes : Attributes
  text : Option String
  tail : Option String
deriving DecidableEq, Repr, Inhabited

/-- Fields with a tag and attributes and without character data. -/
def Fields.plain (tag : String) (attributes : Attributes) : Fields :=
  ⟨tag, attributes, none, none⟩

/-- Equality of fields, in which the order of attributes does not count. -/
def Fields.agree (left right : Fields) : Bool :=
  left.tag == right.tag && left.attributes.agree right.attributes &&
    left.text == right.text && left.tail == right.tail

/-- Character data with more of it behind; what was absent becomes present. -/
def extend (data : Option String) (more : List Char) : Option String :=
  some (data.getD "" ++ String.ofList more)

/-- An element with everything below it. -/
structure Element extends Fields where
  children : List Element
deriving Repr

namespace Element

instance : Inhabited Element := ⟨⟨default, []⟩⟩

/-- An element without children. -/
def leaf (fields : Fields) : Element :=
  ⟨fields, []⟩

/-- The element with `child` as its last child. -/
def append (element child : Element) : Element :=
  { element with children := element.children ++ [child] }

/-- The children with a tag, in document order. -/
def findAll (element : Element) (tag : String) : List Element :=
  element.children.filter fun child => child.tag == tag

/-! ### Equality -/

mutual

/-- Equality of elements, in which the order of attributes does not count and all else
does. -/
def agree : Element → Element → Bool
  | ⟨fields, children⟩, ⟨fields', children'⟩ =>
      fields.agree fields' && agreeAll children children'

/-- Elements agree one by one. -/
def agreeAll : List Element → List Element → Bool
  | [], [] => true
  | e :: es, e' :: es' => agree e e' && agreeAll es es'
  | _, _ => false

end

instance : BEq Element := ⟨agree⟩

/-! ### The element as a list -/

mutual

/-- The fields of an element that stands at `depth` and of everything below it, in document
order, each with its depth. -/
def outlineAt (depth : Nat) : Element → List (Nat × Fields)
  | ⟨fields, children⟩ => (depth, fields) :: outlineAll (depth + 1) children

/-- The outlines of elements that stand side by side. -/
def outlineAll (depth : Nat) : List Element → List (Nat × Fields)
  | [] => []
  | e :: es => outlineAt depth e ++ outlineAll depth es

end

/-- The fields of an element and of everything below it, in document order. -/
def outline (element : Element) : List (Nat × Fields) :=
  outlineAt 0 element

end Element

/-! ### Lists of values

A definition names its options by children of one tag.  Each contributes the values of some
attributes and then its text. -/

/-- The values of `names`, as far as present, followed by the text, if there is one. -/
def Fields.values (names : List String) (fields : Fields) : List String :=
  names.filterMap fields.attributes.get? ++ fields.text.toList

/-- The values of all `fields` with a tag, in order. -/
def listedValues (tag : String) (names : List String) (fields : List Fields) : List String :=
  (fields.filter fun child => child.tag == tag).flatMap (Fields.values names)

/-- The values of the children with a tag. -/
def Element.valueList (element : Element) (tag : String) (names : List String) : List String :=
  listedValues tag names (element.children.map Element.toFields)

/-- Options are children tagged `option` with a name and a text. -/
def Element.options (element : Element) : List String :=
  element.valueList "option" ["name"]

end Workbench.Xml
