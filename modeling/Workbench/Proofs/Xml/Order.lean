/-
Nothing inside of the root is lost, repeated or moved.

From left to right a document says where elements begin, how deep they stand, and which characters
stand between their tags.  An element says the same of itself: its tag, the characters of its text,
and for each child what the child says and then the characters of its tail.  `Mark` is what both
have in common, and the theorem is that a document and its root leave the same marks.

While a document is being read its elements lie on a stack, each without the children that are still
open.  What has been read so far is nevertheless all there, in order: what the root says, if it is
complete, and then what the open elements say, the outermost first (`Progress.marks`).  A piece adds
its own marks at the end of that (`step_tells`).  For a closing tag, which moves an element into its
parent, this needs that an open element has no tail yet (`Progress.Bare`).
-/
import Mathlib
import Workbench.Proofs.Xml.Nesting

namespace Workbench.Xml

/-! ### What an element says -/

namespace Element

mutual

/-- The character data of an element: its text, and for each child the data of the child and then
its tail. -/
def characters : Element → List Char
  | ⟨fields, children⟩ => (fields.text.getD "").toList ++ charactersAll children

/-- The character data of children, each with its tail. -/
def charactersAll : List Element → List Char
  | [] => []
  | e :: es => e.characters ++ (e.tail.getD "").toList ++ charactersAll es

end

/-- Depth and tag of an element and of everything below it, in document order. -/
def tagRows (element : Element) : List (Nat × String) :=
  element.outline.map fun row => (row.1, row.2.tag)

end Element

/-- What is met in a document from left to right. -/
inductive Mark
  /-- An element begins inside of `depth` others. -/
  | begins (depth : Nat) (tag : String)
  /-- A character between two tags. -/
  | char (c : Char)

/-- The character, if a mark is one. -/
def Mark.char? : Mark → Option Char
  | .begins _ _ => none
  | .char c => some c

/-- Depth and tag, if an element begins. -/
def Mark.row? : Mark → Option (Nat × String)
  | .begins depth tag => some (depth, tag)
  | .char _ => none

/-- Characters one after the other. -/
def charMarks (cs : List Char) : List Mark :=
  cs.map Mark.char

theorem charMarks_append (cs ds : List Char) :
    charMarks (cs ++ ds) = charMarks cs ++ charMarks ds :=
  List.map_append

theorem filterMap_char_charMarks (cs : List Char) : (charMarks cs).filterMap Mark.char? = cs := by
  rw [charMarks, List.filterMap_map]
  exact List.filterMap_some

theorem filterMap_row_charMarks (cs : List Char) : (charMarks cs).filterMap Mark.row? = [] := by
  rw [charMarks, List.filterMap_map]
  exact List.filterMap_eq_nil_iff.2 fun _ _ => rfl

/-- The marks of character data. -/
def dataMarks (data : Option String) : List Mark :=
  charMarks (data.getD "").toList

theorem dataMarks_extend (data : Option String) (more : List Char) :
    dataMarks (extend data more) = dataMarks data ++ charMarks more := by
  rw [dataMarks, dataMarks, ← charMarks_append, extend, Option.getD_some, String.toList_append,
    String.toList_ofList]

namespace Element

mutual

/-- The marks of an element that stands at `depth`. -/
def marks (depth : Nat) : Element → List Mark
  | ⟨fields, children⟩ =>
      .begins depth fields.tag :: dataMarks fields.text ++ marksAll (depth + 1) children

/-- The marks of children, each with its tail. -/
def marksAll (depth : Nat) : List Element → List Mark
  | [] => []
  | e :: es => e.marks depth ++ dataMarks e.tail ++ marksAll depth es

end

theorem charactersAll_eq_flatMap (children : List Element) :
    charactersAll children
      = children.flatMap fun child => child.characters ++ (child.tail.getD "").toList := by
  induction children with
  | nil => rfl
  | cons child children ih => rw [charactersAll, ih, List.flatMap_cons]

theorem marksAll_eq_flatMap (depth : Nat) (children : List Element) :
    marksAll depth children
      = children.flatMap fun child => child.marks depth ++ dataMarks child.tail := by
  induction children with
  | nil => rfl
  | cons child children ih => rw [marksAll, ih, List.flatMap_cons]

/-- The characters among the marks of an element are its character data. -/
theorem filterMap_char_marks (element : Element) :
    ∀ depth, (element.marks depth).filterMap Mark.char? = element.characters := by
  induction element using treeInduction with
  | mk fields children ih =>
      intro depth
      have hall : (marksAll (depth + 1) children).filterMap Mark.char?
          = charactersAll children := by
        rw [marksAll_eq_flatMap, List.filterMap_flatMap, charactersAll_eq_flatMap]
        refine List.flatMap_congr fun child hchild => ?_
        rw [List.filterMap_append, ih child hchild, dataMarks, filterMap_char_charMarks]
      rw [marks, List.cons_append, List.filterMap_cons_none rfl, List.filterMap_append, hall,
        dataMarks, filterMap_char_charMarks, characters]

/-- The beginnings among the marks of an element are its outline. -/
theorem filterMap_row_marks (element : Element) :
    ∀ depth, (element.marks depth).filterMap Mark.row?
      = (outlineAt depth element).map fun row => (row.1, row.2.tag) := by
  induction element using treeInduction with
  | mk fields children ih =>
      intro depth
      have hall : (marksAll (depth + 1) children).filterMap Mark.row?
          = (outlineAll (depth + 1) children).map fun row => (row.1, row.2.tag) := by
        rw [marksAll_eq_flatMap, List.filterMap_flatMap, outlineAll_eq_flatMap, List.map_flatMap]
        refine List.flatMap_congr fun child hchild => ?_
        rw [List.filterMap_append, ih child hchild, dataMarks, filterMap_row_charMarks,
          List.append_nil]
      have hfirst : Mark.row? (.begins depth fields.tag) = some (depth, fields.tag) := rfl
      rw [marks, List.cons_append, List.filterMap_cons_some hfirst, List.filterMap_append, hall,
        dataMarks, filterMap_row_charMarks, outlineAt, List.map_cons]
      rfl

/-! ### Building an element -/

theorem marks_append (depth : Nat) (parent child : Element) :
    (parent.append child).marks depth
      = parent.marks depth ++ child.marks (depth + 1) ++ dataMarks child.tail := by
  obtain ⟨fields, children⟩ := parent
  show marks depth ⟨fields, children ++ [child]⟩ = _
  rw [marks, marks, marksAll_eq_flatMap, List.flatMap_append, ← marksAll_eq_flatMap,
    List.flatMap_singleton]
  simp only [List.cons_append, List.append_assoc]

theorem marks_addText (depth : Nat) (element : Element) (more : List Char) :
    (element.addText more).marks depth = element.marks depth ++ charMarks more := by
  obtain ⟨fields, children⟩ := element
  -- Behind everything said so far is the text of an element without children, and else the tail
  -- of the last child.
  rcases List.eq_nil_or_concat children with rfl | ⟨init, last, rfl⟩
  · show marks depth ⟨{ fields with text := extend fields.text more }, []⟩ = _
    rw [marks, marks, dataMarks_extend, marksAll]
    simp only [List.cons_append, List.append_nil]
  · have htail : ∀ tail, marks (depth + 1) { last with tail := tail } = last.marks (depth + 1) := by
      intro tail
      cases last
      rfl
    rw [List.concat_eq_append, addText, if_neg (by simp), Progress.mapLast_append, marks, marks,
      marksAll_eq_flatMap, marksAll_eq_flatMap, List.flatMap_append, List.flatMap_append,
      List.flatMap_singleton, List.flatMap_singleton, htail, dataMarks_extend]
    simp only [List.cons_append, List.append_assoc]

theorem tail_addText (element : Element) (more : List Char) :
    (element.addText more).tail = element.tail := by
  unfold addText
  split <;> rfl

end Element

/-! ### What a document says -/

namespace Markup

/-- The characters that a piece stands for: text with its references replaced, or the content of a
character data section. -/
def content : Markup → List Char
  | .text raw =>
      match unescape raw with
      | .ok cs => cs
      | .error _ => []
  | .data bytes =>
      match Utf8.decode bytes with
      | .ok string => string.toList
      | .error _ => []
  | _ => []

/-- The name of the element that begins with a piece. -/
def begins? : Markup → Option String
  | .opening content => some (tagName content)
  | .single content => some (tagName content)
  | _ => none

/-- The number of elements that are open behind a piece. -/
def depthAfter (depth : Nat) : Markup → Nat
  | .opening _ => depth + 1
  | .closing _ => depth - 1
  | _ => depth

/-- The marks of a piece at a depth; outside of all elements characters do not count. -/
def marks (depth : Nat) (piece : Markup) : List Mark :=
  match piece.begins? with
  | some tag => [.begins depth tag]
  | none => if depth = 0 then [] else charMarks piece.content

theorem marks_of_content {depth : Nat} {piece : Markup} (h : piece.begins? = none) :
    piece.marks depth = if depth = 0 then [] else charMarks piece.content := by
  rw [marks, h]

theorem marks_of_silent {depth : Nat} {piece : Markup} (h : piece.begins? = none)
    (hcontent : piece.content = []) : piece.marks depth = [] := by
  rw [marks_of_content h, hcontent]
  exact ite_self []

theorem content_of_begins {piece : Markup} {tag : String} (h : piece.begins? = some tag) :
    piece.content = [] := by
  cases piece with
  | opening _ | single _ => rfl
  | text _ | data _ | closing _ | comment _ | instruction _ | doctype _ => cases h

theorem filterMap_char_marks (depth : Nat) (piece : Markup) :
    (piece.marks depth).filterMap Mark.char? = if depth = 0 then [] else piece.content := by
  unfold marks
  split
  · rename_i tag hbegins
    rw [content_of_begins hbegins, ite_self]
    rfl
  · split
    · rfl
    · exact filterMap_char_charMarks piece.content

theorem filterMap_row_marks (depth : Nat) (piece : Markup) :
    (piece.marks depth).filterMap Mark.row?
      = (piece.begins?.map fun tag => (depth, tag)).toList := by
  unfold marks
  split
  · rename_i tag hbegins
    rw [hbegins]
    rfl
  · rename_i hbegins
    rw [hbegins]
    split
    · rfl
    · exact filterMap_row_charMarks piece.content

end Markup

/-- Pieces with the number of elements that are open before each. -/
def nested (depth : Nat) : List Markup → List (Nat × Markup)
  | [] => []
  | piece :: pieces => (depth, piece) :: nested (piece.depthAfter depth) pieces

/-- The characters between the tags of the root, which is where an element is open. -/
def Scan.characters (scan : Scan) : List Char :=
  (nested 0 scan.pieces).flatMap fun row => if row.1 = 0 then [] else row.2.content

/-- Depth and name of every tag that begins an element. -/
def Scan.tagRows (scan : Scan) : List (Nat × String) :=
  (nested 0 scan.pieces).filterMap fun row => row.2.begins?.map fun tag => (row.1, tag)

/-! ### What has been read so far -/

namespace Progress

/-- The marks of the elements that are open, the outermost first. -/
def openMarks : List Element → List Mark
  | [] => []
  | element :: outer => openMarks outer ++ element.marks outer.length

/-- The marks of all that has been read. -/
def marks (progress : Progress) : List Mark :=
  progress.root.elim [] (Element.marks 0) ++ openMarks progress.elements

/-- No open element has a tail. -/
def Bare (progress : Progress) : Prop :=
  ∀ element ∈ progress.elements, element.tail = none

/-- How what has been read goes on: at which depth, and with which marks. -/
structure Tells (progress next : Progress) (depth : Nat) (told : List Mark) : Prop where
  bare : next.Bare
  depth : next.elements.length = depth
  marks : next.marks = progress.marks ++ told

theorem tells_nothing {progress : Progress} (h : progress.Bare) :
    Tells progress progress progress.elements.length [] :=
  ⟨h, rfl, (List.append_nil _).symm⟩

theorem tells_addText {progress : Progress} (h : progress.Bare) (more : List Char) :
    Tells progress (progress.addText more) progress.elements.length
      (if progress.elements.length = 0 then [] else charMarks more) := by
  obtain ⟨names, elements, root⟩ := progress
  cases elements with
  | nil => exact tells_nothing h
  | cons element outer =>
      obtain ⟨helement, houter⟩ := List.forall_mem_cons.1 h
      refine ⟨List.forall_mem_cons.2 ⟨?_, houter⟩, rfl, ?_⟩
      · rw [element.tail_addText more, helement]
      · show root.elim [] (Element.marks 0) ++
          (openMarks outer ++ (element.addText more).marks outer.length) = _
        rw [element.marks_addText, if_neg (by simp)]
        simp only [marks, openMarks, List.append_assoc]

theorem tells_enter {progress : Progress} (h : progress.Bare) (tag : String)
    (attributes : Attributes) :
    Tells progress (progress.enter tag attributes) (progress.elements.length + 1)
      [.begins progress.elements.length tag] := by
  refine ⟨List.forall_mem_cons.2 ⟨rfl, h⟩, rfl, ?_⟩
  show progress.root.elim [] (Element.marks 0) ++ (openMarks progress.elements ++
    [.begins progress.elements.length tag]) = _
  rw [marks, List.append_assoc]

/-- An element that is attached says what it has to say behind all else. -/
theorem tells_attach {progress next : Progress} (h : progress.Bare) {element : Element}
    (htail : element.tail = none) (hnext : progress.attach element = .ok next) :
    Tells progress next progress.elements.length (element.marks progress.elements.length) := by
  obtain ⟨names, elements, root⟩ := progress
  cases elements with
  | cons parent outer =>
      cases hnext
      obtain ⟨hparent, houter⟩ := List.forall_mem_cons.1 h
      refine ⟨List.forall_mem_cons.2 ⟨hparent, houter⟩, rfl, ?_⟩
      show root.elim [] (Element.marks 0) ++
        (openMarks outer ++ (parent.append element).marks outer.length) = _
      rw [Element.marks_append, htail]
      simp only [marks, openMarks, List.append_assoc, List.length_cons]
      rw [show dataMarks none = [] from rfl, List.append_nil]
  | nil =>
      cases root with
      | none =>
          cases hnext
          exact ⟨h, rfl, List.append_nil _⟩
      | some _ => cases hnext

/-- A closing tag says nothing: what the element has said is said by its parent from then on. -/
theorem tells_close {progress next : Progress} (h : progress.Bare) {name : String}
    (hnext : progress.close name = .ok next) :
    Tells progress next (progress.elements.length - 1) [] := by
  obtain ⟨names, elements, root⟩ := progress
  obtain ⟨outerNames, -, hleave⟩ := bind_eq_ok.1 hnext
  cases elements with
  | nil => cases hleave
  | cons element outer =>
      obtain ⟨helement, houter⟩ := List.forall_mem_cons.1 h
      -- The element leaves the stack for its parent, one level up, and what it says stays where
      -- it was: behind what all others say and before the tail it does not have yet.
      have hbare : Bare ⟨outerNames, outer, root⟩ := houter
      have htells := tells_attach hbare helement hleave
      refine ⟨htells.bare, htells.depth, ?_⟩
      rw [htells.marks, List.append_nil]
      exact List.append_assoc _ _ _

/-- **Every piece adds its marks to those of what has been read.** -/
theorem step_tells {progress next : Progress} (h : progress.Bare) {piece : Markup}
    (hnext : progress.step piece = .ok next) :
    Tells progress next (piece.depthAfter progress.elements.length)
      (piece.marks progress.elements.length) := by
  cases piece with
  | text raw =>
      obtain ⟨content, hcontent, hpure⟩ := bind_eq_ok.1 hnext
      cases hpure
      have hread : Markup.content (.text raw) = content := by
        rw [Markup.content, mapError_eq_ok.1 hcontent]
      rw [Markup.marks_of_content rfl, hread]
      exact tells_addText h content
  | data bytes =>
      obtain ⟨content, hcontent, hpure⟩ := bind_eq_ok.1 hnext
      cases hpure
      have hread : Markup.content (.data bytes) = content.toList := by
        rw [Markup.content, mapError_eq_ok.1 hcontent]
      rw [Markup.marks_of_content rfl, hread]
      exact tells_addText h content.toList
  | opening content =>
      obtain ⟨⟨tag, attributes⟩, hread, hpure⟩ := bind_eq_ok.1 hnext
      cases hpure
      rw [tagName_of_readTag hread]
      exact tells_enter h (tagName content) attributes
  | single content =>
      obtain ⟨⟨tag, attributes⟩, hread, hattach⟩ := bind_eq_ok.1 hnext
      have htells := tells_attach h rfl hattach
      rw [tagName_of_readTag hread] at htells
      exact htells
  | closing name =>
      rw [Markup.marks_of_silent rfl rfl]
      exact tells_close h hnext
  | comment _ | instruction _ | doctype _ =>
      cases hnext
      rw [Markup.marks_of_silent rfl rfl]
      exact tells_nothing h

/-- So a run adds the marks of its pieces, each at its depth. -/
theorem run_marks (pieces : List Markup) {progress last : Progress} (h : progress.Bare)
    (hlast : progress.run pieces = .ok last) :
    last.marks = progress.marks ++
      (nested progress.elements.length pieces).flatMap fun row => row.2.marks row.1 := by
  induction pieces generalizing progress with
  | nil =>
      cases hlast
      exact (List.append_nil _).symm
  | cons piece pieces ih =>
      obtain ⟨next, hnext, hrest⟩ := bind_eq_ok.1 hlast
      have htells := step_tells h hnext
      rw [ih htells.bare hrest, htells.marks, htells.depth, nested, List.flatMap_cons,
        List.append_assoc]

/-- Where all elements are closed the root has said everything. -/
theorem marks_of_finish {progress : Progress} {element : Element}
    (h : progress.finish = .ok element) : progress.marks = element.marks 0 := by
  obtain ⟨names, elements, root⟩ := progress
  cases elements with
  | cons _ _ => cases h
  | nil =>
      cases root with
      | none => cases h
      | some root =>
          cases h
          exact List.append_nil _

end Progress

/-! ### Documents -/

/-- **A document and its root leave the same marks**, in the same order. -/
theorem marks_root {scan : Scan} {element : Element} (h : scan.root = .ok element) :
    element.marks 0 = (nested 0 scan.pieces).flatMap fun row => row.2.marks row.1 := by
  obtain ⟨-, last, hrun, hfinish⟩ := root_eq_ok.1 h
  have hbare : Progress.start.Bare := fun element helement => by cases helement
  rw [← Progress.marks_of_finish hfinish, Progress.run_marks scan.pieces hbare hrun]
  rfl

theorem characters_root {scan : Scan} {element : Element} (h : scan.root = .ok element) :
    element.characters = scan.characters := by
  rw [← element.filterMap_char_marks 0, marks_root h, List.filterMap_flatMap, Scan.characters]
  exact List.flatMap_congr fun row _ => row.2.filterMap_char_marks row.1

theorem tagRows_root {scan : Scan} {element : Element} (h : scan.root = .ok element) :
    element.tagRows = scan.tagRows := by
  have hrows : element.tagRows = (element.marks 0).filterMap Mark.row? :=
    (element.filterMap_row_marks 0).symm
  rw [hrows, marks_root h, List.filterMap_flatMap, Scan.tagRows, List.filterMap_eq_flatMap_toList]
  exact List.flatMap_congr fun row _ => row.2.filterMap_row_marks row.1

/-- **The root of a document holds its characters and its elements**: all characters between the
tags of the root, in order and none twice, and all elements at their depths, in order. -/
theorem read_in_order {document : String} {element : Element} (h : read document = .ok element) :
    element.characters = (scan (withoutMark document.toList)).characters ∧
      element.tagRows = (scan (withoutMark document.toList)).tagRows := by
  have hroot : (scan (withoutMark document.toList)).root = .ok element := mapError_eq_ok.1 h
  exact ⟨characters_root hroot, tagRows_root hroot⟩

/-- Text that a comment, a reference, a character data section and an instruction tear apart. -/
def torn : String :=
  "<a>l<!---->e&lt;<![CDATA[<&]]><b>t<c/><?p?>u</b> </a> "

def tornRoot : Element :=
  ⟨⟨"a", [], some "le<<&", none⟩,
    [⟨⟨"b", [], some "t", some " "⟩, [⟨⟨"c", [], none, some "u"⟩, []⟩]⟩]⟩

theorem read_in_order_torn :
    read torn = .ok tornRoot ∧
      (scan (withoutMark torn.toList)).characters = "le<<&tu ".toList ∧
      (scan (withoutMark torn.toList)).tagRows = [(0, "a"), (1, "b"), (2, "c")] := by
  have h : read torn = .ok tornRoot := by cbv
  obtain ⟨hcharacters, hrows⟩ := read_in_order h
  refine ⟨h, ?_, ?_⟩
  · rw [← hcharacters]
    decide
  · rw [← hrows]
    decide

end Workbench.Xml
