/-
From pieces of markup to one element.

The pieces are read in order.  Opening tags begin elements, which stay open until their
closing tag; character data goes to the innermost open element, to its text as long as it has
no child and from then on to the tail of its last child.  Outside of all elements character
data is checked and dropped.  The names of the open tags, against which closing tags are
checked (`closeName`), are kept apart from the elements under construction; that both always have
the same length is what makes `Fault.nothingOpen` impossible.

The first fault in the order of the document is the one reported.
-/
import Workbench.Xml.Element
import Workbench.Xml.Markup

namespace Workbench.Xml

/-- Change the last member of a list. -/
def mapLast {α : Type} (f : α → α) : List α → List α
  | [] => []
  | [a] => [f a]
  | a :: b :: rest => a :: mapLast f (b :: rest)

/-- The element after one more stretch of character data inside it. -/
def Element.addText (element : Element) (more : List Char) : Element :=
  if element.children.isEmpty then { element with text := extend element.text more }
  else
    { element with
      children := mapLast (fun child => { child with tail := extend child.tail more })
        element.children }

/-- The names that are open after a closing tag, which has to name the innermost of them. -/
def closeName (names : List String) (name : String) : Except Fault (List String) :=
  match names with
  | [] => .error (.strayClose name)
  | expected :: names =>
      if expected = name then .ok names else .error (.mismatchedClose expected name)

/-- A document that has been read in part. -/
structure Progress where
  /-- The names of the tags that are open, the innermost first. -/
  names : List String
  /-- The elements that are open, the innermost first. -/
  elements : List Element
  /-- The element that has been closed outside of all others. -/
  root : Option Element
deriving Inhabited

namespace Progress

/-- Nothing has been read. -/
def start : Progress :=
  ⟨[], [], none⟩

/-- Character data goes into the innermost open element. -/
def addText (progress : Progress) (more : List Char) : Progress :=
  match progress.elements with
  | [] => progress
  | element :: outer => { progress with elements := element.addText more :: outer }

/-- A finished element goes into the innermost open one, or is the root. -/
def attach (progress : Progress) (element : Element) : Except Fault Progress :=
  match progress.elements, progress.root with
  | parent :: outer, _ => .ok { progress with elements := parent.append element :: outer }
  | [], none => .ok { progress with root := some element }
  | [], some _ => .error .secondRoot

/-- Begin an element. -/
def enter (progress : Progress) (tag : String) (attributes : Attributes) : Progress :=
  { progress with
    names := tag :: progress.names
    elements := Element.leaf (Fields.plain tag attributes) :: progress.elements }

/-- The innermost open element is complete. -/
def leave (progress : Progress) : Except Fault Progress :=
  match progress.elements with
  | [] => .error .nothingOpen
  | element :: outer => { progress with elements := outer }.attach element

/-- A closing tag completes the innermost open element. -/
def close (progress : Progress) (name : String) : Except Fault Progress := do
  let names ← closeName progress.names name
  { progress with names := names }.leave

/-- What has been read after one more piece. -/
def step (progress : Progress) : Markup → Except Fault Progress
  | .text raw => do
      let content ← (unescape raw).mapError .reference
      pure (progress.addText content)
  | .data bytes => do
      let content ← (Utf8.decode bytes).mapError .encoding
      pure (progress.addText content.toList)
  | .opening content => do
      let (tag, attributes) ← readTag content
      pure (progress.enter tag attributes)
  | .single content => do
      let (tag, attributes) ← readTag content
      progress.attach (Element.leaf (Fields.plain tag attributes))
  | .closing name => progress.close (String.ofList name)
  | .comment _ => .ok progress
  | .instruction _ => .ok progress
  | .doctype _ => .ok progress

/-- What has been read after all pieces. -/
def run (progress : Progress) : List Markup → Except Fault Progress
  | [] => .ok progress
  | piece :: pieces => do (← progress.step piece).run pieces

/-- The root, once everything has been closed. -/
def finish (progress : Progress) : Except Fault Element :=
  match progress.elements, progress.root with
  | element :: _, _ => .error (.unclosedElement element.tag)
  | [], some root => .ok root
  | [], none => .error .noRoot

end Progress

/-- The root of the document that consists of the pieces of a scan. -/
def Scan.root (scan : Scan) : Except Fault Element := do
  let progress ← Progress.start.run scan.pieces
  match scan.fault with
  | some fault => .error (.markup fault)
  | none => progress.finish

/-- The root of a document. -/
def parse (document : String) : Except Fault Element :=
  (scan (withoutMark document.toList)).root

/-- The root of a document, or the failure to read it. -/
def read (document : String) : Except Failure Element :=
  (parse document).mapError Fault.failure

end Workbench.Xml
