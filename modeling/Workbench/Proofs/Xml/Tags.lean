/-
The elements of a document have its tags.

An element begins with an opening tag or with a tag that closes itself, so from left to right a
document says which elements it has, and with which attributes.  While it is being read, what has
been read so far is all there in that order: the tags of the root, if it is complete, and then those
of the open elements, the outermost first (`Progress.tags`).  A tag that begins an element adds one
at the end, and nothing else changes any of them.

So what is known of one tag is known of a whole document: its elements have all attributes of their
tags, in their order, and a document with a name twice in a tag has no root.
-/
import Mathlib.Data.List.Forall2
import Workbench.Proofs.Xml.Attribute
import Workbench.Proofs.Xml.Nesting

namespace Workbench.Xml

/-! ### The tags of an element -/

namespace Element

/-- Tag and attributes of an element and of everything below it, in document order. -/
def tags (element : Element) : List (String × Attributes) :=
  element.outline.map fun row => (row.2.tag, row.2.attributes)

/-- The depth at which an outline begins does not matter to its tags. -/
theorem tags_outlineAt (element : Element) : ∀ depth,
    (outlineAt depth element).map (fun row => (row.2.tag, row.2.attributes)) = element.tags := by
  induction element using treeInduction with
  | mk fields children ih =>
      have hmk : ∀ depth, (outlineAt depth ⟨fields, children⟩).map
          (fun row => (row.2.tag, row.2.attributes)) =
            (fields.tag, fields.attributes) :: children.flatMap tags := by
        intro depth
        rw [outlineAt, outlineAll_eq_flatMap, List.map_cons, List.map_flatMap]
        exact congrArg _ (List.flatMap_congr fun child hchild => ih child hchild (depth + 1))
      intro depth
      exact (hmk depth).trans (hmk 0).symm

theorem tags_mk (fields : Fields) (children : List Element) :
    tags ⟨fields, children⟩ = (fields.tag, fields.attributes) :: children.flatMap tags := by
  rw [tags, outline, outlineAt, outlineAll_eq_flatMap, List.map_cons, List.map_flatMap]
  exact congrArg _ (List.flatMap_congr fun child _ => tags_outlineAt child 1)

theorem tags_append (parent child : Element) :
    (parent.append child).tags = parent.tags ++ child.tags := by
  obtain ⟨fields, children⟩ := parent
  show tags ⟨fields, children ++ [child]⟩ = _
  rw [tags_mk, tags_mk, List.flatMap_append, List.flatMap_singleton, List.cons_append]

theorem tags_withTail (element : Element) (tail : Option String) :
    tags { element with tail := tail } = element.tags := by
  obtain ⟨fields, children⟩ := element
  show tags ⟨{ fields with tail := tail }, children⟩ = _
  rw [tags_mk, tags_mk]

/-- Character data is no part of a tag. -/
theorem tags_addText (element : Element) (more : List Char) :
    (element.addText more).tags = element.tags := by
  obtain ⟨fields, children⟩ := element
  rcases List.eq_nil_or_concat children with rfl | ⟨init, last, rfl⟩
  · show tags ⟨{ fields with text := extend fields.text more }, []⟩ = _
    rw [tags_mk, tags_mk]
  · rw [List.concat_eq_append, addText, if_neg (by simp), Progress.mapLast_append, tags_mk, tags_mk,
      List.flatMap_append, List.flatMap_append, List.flatMap_singleton, List.flatMap_singleton,
      tags_withTail]

end Element

/-! ### The tags of a document -/

/-- What stands between the brackets of a tag that begins an element. -/
def Markup.tagContent? : Markup → Option (List Char)
  | .opening content => some content
  | .single content => some content
  | _ => none

/-- The contents of the tags that begin elements, in the order of the document. -/
def Scan.tagContents (scan : Scan) : List (List Char) :=
  scan.pieces.filterMap Markup.tagContent?

namespace Progress

/-- The tags of the elements that are open, the outermost first. -/
def openTags : List Element → List (String × Attributes)
  | [] => []
  | element :: outer => openTags outer ++ element.tags

/-- The tags of all that has been read. -/
def tags (progress : Progress) : List (String × Attributes) :=
  progress.root.elim [] Element.tags ++ openTags progress.elements

theorem tags_addText (progress : Progress) (more : List Char) :
    (progress.addText more).tags = progress.tags := by
  obtain ⟨names, elements, root⟩ := progress
  cases elements with
  | nil => rfl
  | cons element outer =>
      show root.elim [] Element.tags ++ (openTags outer ++ (element.addText more).tags) = _
      rw [element.tags_addText]
      rfl

theorem tags_attach {progress next : Progress} {element : Element}
    (h : progress.attach element = .ok next) : next.tags = progress.tags ++ element.tags := by
  obtain ⟨names, elements, root⟩ := progress
  cases elements with
  | cons parent outer =>
      cases h
      show root.elim [] Element.tags ++ (openTags outer ++ (parent.append element).tags) = _
      simp only [Element.tags_append, tags, openTags, List.append_assoc]
  | nil =>
      cases root with
      | none =>
          cases h
          exact List.append_nil _
      | some _ => cases h

/-- An element that leaves the stack for its parent keeps its place: it stays the last one. -/
theorem tags_close {progress next : Progress} {name : String}
    (h : progress.close name = .ok next) : next.tags = progress.tags := by
  obtain ⟨names, elements, root⟩ := progress
  obtain ⟨outerNames, -, hleave⟩ := bind_eq_ok.1 h
  cases elements with
  | nil => cases hleave
  | cons element outer => exact (tags_attach hleave).trans (List.append_assoc _ _ _)

/-- **A piece adds the tag that it is read as, if it begins an element.** -/
theorem step_tags {progress next : Progress} {piece : Markup} (h : progress.step piece = .ok next) :
    ∃ read, next.tags = progress.tags ++ read ∧
      List.Forall₂ (fun content tag => readTag content = .ok tag) piece.tagContent?.toList read := by
  cases piece with
  | text _ | data _ =>
      obtain ⟨content, -, hpure⟩ := bind_eq_ok.1 h
      cases hpure
      exact ⟨[], by rw [tags_addText, List.append_nil], .nil⟩
  | opening content =>
      obtain ⟨⟨tag, attributes⟩, hread, hpure⟩ := bind_eq_ok.1 h
      cases hpure
      exact ⟨[(tag, attributes)], (List.append_assoc _ _ _).symm, .cons hread .nil⟩
  | single content =>
      obtain ⟨⟨tag, attributes⟩, hread, hattach⟩ := bind_eq_ok.1 h
      exact ⟨[(tag, attributes)], tags_attach hattach, .cons hread .nil⟩
  | closing name => exact ⟨[], by rw [tags_close h, List.append_nil], .nil⟩
  | comment _ | instruction _ | doctype _ =>
      cases h
      exact ⟨[], (List.append_nil _).symm, .nil⟩

theorem run_tags (pieces : List Markup) {progress last : Progress}
    (h : progress.run pieces = .ok last) :
    ∃ read, last.tags = progress.tags ++ read ∧
      List.Forall₂ (fun content tag => readTag content = .ok tag)
        (pieces.filterMap Markup.tagContent?) read := by
  induction pieces generalizing progress with
  | nil =>
      cases h
      exact ⟨[], (List.append_nil _).symm, .nil⟩
  | cons piece pieces ih =>
      obtain ⟨next, hnext, hrest⟩ := bind_eq_ok.1 h
      obtain ⟨first, hfirst, hreadFirst⟩ := step_tags hnext
      obtain ⟨others, hothers, hreadOthers⟩ := ih hrest
      refine ⟨first ++ others, by rw [hothers, hfirst, List.append_assoc], ?_⟩
      rw [List.filterMap_eq_flatMap_toList, List.flatMap_cons, ← List.filterMap_eq_flatMap_toList]
      exact List.rel_append hreadFirst hreadOthers

theorem tags_of_finish {progress : Progress} {element : Element}
    (h : progress.finish = .ok element) : progress.tags = element.tags := by
  obtain ⟨names, elements, root⟩ := progress
  cases elements with
  | cons _ _ => cases h
  | nil =>
      cases root with
      | none => cases h
      | some root =>
          cases h
          exact List.append_nil _

end Progress

/-! ### Documents -/

theorem exists_of_mem_right {α β : Type} {R : α → β → Prop} {as : List α} {bs : List β}
    (h : List.Forall₂ R as bs) : ∀ b ∈ bs, ∃ a ∈ as, R a b := by
  induction h with
  | nil => exact nofun
  | cons hab _ ih =>
      refine List.forall_mem_cons.2 ⟨⟨_, List.mem_cons_self, hab⟩, fun b hb => ?_⟩
      obtain ⟨a, ha, hab⟩ := ih b hb
      exact ⟨a, .tail _ ha, hab⟩

/-- The elements of a document are what its tags are read as. -/
theorem forall₂_readTag {document : String} {element : Element} (h : read document = .ok element) :
    List.Forall₂ (fun content tag => readTag content = .ok tag)
      (scan (withoutMark document.toList)).tagContents element.tags := by
  obtain ⟨-, last, hrun, hfinish⟩ := root_eq_ok.1 (mapError_eq_ok.1 h)
  obtain ⟨tags, htags, hread⟩ := Progress.run_tags _ hrun
  rw [Progress.tags_of_finish hfinish] at htags
  rw [htags]
  exact hread

/-- **An element of a document has all attributes of its tag**, in their order and with different
names. -/
theorem forall₂_isTag {document : String} {element : Element} (h : read document = .ok element) :
    List.Forall₂ (fun content tag => IsTag tag content ∧ (tag.2.map Prod.fst).Nodup)
      (scan (withoutMark document.toList)).tagContents element.tags :=
  (forall₂_readTag h).imp fun _ _ => isTag_of_readTag

theorem exists_readTag {document : String} {element : Element} {content : List Char}
    (h : read document = .ok element)
    (hcontent : content ∈ (scan (withoutMark document.toList)).tagContents) :
    ∃ tag, readTag content = .ok tag := by
  obtain ⟨tag, -, hread⟩ := exists_of_mem_right (forall₂_readTag h).flip content hcontent
  exact ⟨tag, hread⟩

/-- **A name that occurs twice in a tag is a fault of the document.** -/
theorem read_of_repeated {document : String} {content : List Char} {tag : String × Attributes}
    (hcontent : content ∈ (scan (withoutMark document.toList)).tagContents) (htag : IsTag tag content)
    (h : ¬ (tag.2.map Prod.fst).Nodup) : ∃ message, read document = .error (.xml message) := by
  refine exists_message fun element helement => ?_
  obtain ⟨found, hfound⟩ := exists_readTag helement hcontent
  obtain ⟨start, previous, hduplicate⟩ := htag.readTag_eq.2 h
  rw [hduplicate] at hfound
  cases hfound

end Workbench.Xml
