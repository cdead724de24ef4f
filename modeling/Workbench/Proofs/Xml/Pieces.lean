/-
The pieces that an element is written as.

Reading has two stages: a text is cut into pieces of markup, and the pieces are put together to
elements.  `Element.pieces` is what lies between: the pieces that the compact form consists of.
Each stage is inverted on its own.  `scan_compactText` says that the compact form is cut into
these pieces wherever it stands in a document, and `run_pieces` that they build the element inside
whatever is open already.  What follows the text and what has been read before it are arbitrary,
which is what the inductions over the tree need.
-/
import Mathlib.Data.List.TakeWhile
import Workbench.Proofs.Xml.Tree
import Workbench.Xml.Document

namespace Workbench.Xml

/-! ### The pieces of an element -/

/-- The pieces that character data is written as. -/
def dataPieces (data : Option String) : List Markup :=
  if data.getD "" = "" then [] else [.text (dataText data)]

mutual

/-- The pieces that an element is written as. -/
def Element.pieces : Element → List Markup
  | ⟨fields, children⟩ =>
      if (fields.text.getD "").isEmpty && children.isEmpty then [.single fields.content]
      else
        .opening fields.content :: dataPieces fields.text ++ piecesAll children ++
          [.closing fields.tag.toList]

/-- The pieces that elements are written as, each with its tail. -/
def piecesAll : List Element → List Markup
  | [] => []
  | e :: es => e.pieces ++ dataPieces e.tail ++ piecesAll es

end

/-- A scan with more pieces in front. -/
def Scan.afterAll (pieces : List Markup) (scan : Scan) : Scan :=
  { scan with pieces := pieces ++ scan.pieces }

theorem Scan.afterAll_cons (piece : Markup) (pieces : List Markup) (scan : Scan) :
    scan.afterAll (piece :: pieces) = (scan.afterAll pieces).after piece := rfl

theorem Scan.afterAll_append (pieces more : List Markup) (scan : Scan) :
    scan.afterAll (pieces ++ more) = (scan.afterAll more).afterAll pieces := by
  simp [Scan.afterAll]

/-! ### Cutting off one piece -/

/-- A piece of markup comes before whatever the rest is cut into. -/
theorem scan_markup {cs rest : List Char} {piece : Markup}
    (h : readMarkup cs = .ok (piece, rest)) : scan ('<' :: cs) = (scan rest).after piece := by
  rw [scan, if_pos rfl]
  split
  · rename_i fault hfault
    rw [h] at hfault
    cases hfault
  · rename_i piece' more hmore
    rw [h] at hmore
    cases hmore
    rfl

/-- Nothing or markup: what a stretch of text may be followed by. -/
def EndsText (cs : List Char) : Prop :=
  cs = [] ∨ ∃ more, cs = '<' :: more

theorem EndsText.takeWhile {text rest : List Char} (hrest : EndsText rest)
    (h : ∀ c ∈ text, inText c = true) : (text ++ rest).takeWhile inText = text := by
  rcases hrest with rfl | ⟨more, rfl⟩
  · rw [List.append_nil, List.takeWhile_eq_self_iff.2 h]
  · exact takeWhile_append_stop h (by decide)

theorem EndsText.dropWhile {text rest : List Char} (hrest : EndsText rest)
    (h : ∀ c ∈ text, inText c = true) : (text ++ rest).dropWhile inText = rest := by
  rcases hrest with rfl | ⟨more, rfl⟩
  · rw [List.append_nil, List.dropWhile_eq_nil_iff.2 h]
  · exact dropWhile_append_stop h (by decide)

/-- A stretch of text is one piece. -/
theorem scan_text {text rest : List Char} (hne : text ≠ []) (h : ∀ c ∈ text, c ≠ '<')
    (hrest : EndsText rest) : scan (text ++ rest) = (scan rest).after (.text text) := by
  cases text with
  | nil => exact absurd rfl hne
  | cons c text =>
      have hin : ∀ d ∈ text, inText d = true :=
        fun d hd => bne_iff_ne.2 (h d (by simp [hd]))
      rw [List.cons_append, scan, if_neg (h c (by simp)), hrest.takeWhile hin,
        hrest.dropWhile hin]

/-- Character data is cut into its pieces. -/
theorem scan_dataText (data : Option String) {rest : List Char} (hrest : EndsText rest) :
    scan (dataText data ++ rest) = (scan rest).afterAll (dataPieces data) := by
  unfold dataPieces
  split
  · rename_i hempty
    rw [dataText, hempty]
    rfl
  · rename_i hdata
    have hne : dataText data ≠ [] := by
      intro hnil
      exact hdata (String.toList_eq_nil_iff.1 (escape_eq_nil.1 hnil))
    rw [scan_text hne (fun c hc => ne_open_of_mem_escape hc) hrest]
    rfl

/-! ### Cutting off one tag -/

theorem content_cons {fields : Fields} (h : fields.Clean) :
    ∃ c cs, fields.content = c :: cs ∧ c ≠ '!' ∧ c ≠ '?' ∧ c ≠ '/' := by
  obtain ⟨c, cs, hlist⟩ := h.tag.exists_cons
  obtain ⟨-, -, -, hslash, -, hmark, hask, -⟩ := ne_of_isNameChar (h.tag.2 c (by simp [hlist]))
  exact ⟨c, cs ++ fields.attributes.flatMap attributeText, by simp [Fields.content, hlist],
    hmark, hask, hslash⟩

/-- A tag does not look as if it closed itself. -/
theorem getLast_content {fields : Fields} (h : fields.Clean) :
    fields.content.getLast? ≠ some '/' := by
  unfold Fields.content
  rcases List.eq_nil_or_concat fields.attributes with hnil | ⟨attributes, entry, hconcat⟩
  · rw [hnil, List.flatMap_nil, List.append_nil]
    intro hlast
    exact (ne_of_isNameChar (h.tag.2 _ (List.mem_of_getLast? hlast))).2.2.2.1 rfl
  · rw [hconcat, List.concat_eq_append, List.flatMap_append, List.flatMap_singleton,
      attributeText, ← List.append_assoc, ← List.append_assoc, List.getLast?_concat]
    decide

theorem readMarkup_of_ne {c : Char} (cs : List Char) (hmark : c ≠ '!') (hask : c ≠ '?')
    (hslash : c ≠ '/') : readMarkup (c :: cs) = readOpening (c :: cs) := by
  unfold readMarkup
  split <;> simp_all

theorem scan_opening {fields : Fields} (h : fields.Clean) (rest : List Char) :
    scan (fields.tagStart ++ '>' :: rest) = (scan rest).after (.opening fields.content) := by
  obtain ⟨c, cs, hcons, hmark, hask, hslash⟩ := content_cons h
  have hcut := cutTag_closed (ne_close_of_mem_content h) (foldl_quoteAfter_content h) rest
  have hread : readMarkup (fields.content ++ '>' :: rest)
      = .ok (.opening fields.content, rest) := by
    rw [hcons, List.cons_append, readMarkup_of_ne _ hmark hask hslash, ← List.cons_append,
      ← hcons, readOpening, hcut]
    exact if_neg (getLast_content h)
  exact scan_markup hread

theorem scan_single {fields : Fields} (h : fields.Clean) (rest : List Char) :
    scan (fields.tagStart ++ singleEnd ++ rest)
      = (scan rest).after (.single fields.content) := by
  obtain ⟨c, cs, hcons, hmark, hask, hslash⟩ := content_cons h
  have hclose : ∀ d ∈ fields.content ++ ['/'], d ≠ '>' := by
    intro d hd
    rcases List.mem_append.1 hd with hd | hd
    · exact ne_close_of_mem_content h d hd
    · rw [List.mem_singleton.1 hd]
      decide
  have hquotes : (fields.content ++ ['/']).foldl quoteAfter none = none := by
    rw [List.foldl_append, foldl_quoteAfter_content h]
    rfl
  have hcut := cutTag_closed hclose hquotes rest
  have hread : readMarkup (fields.content ++ ['/'] ++ '>' :: rest)
      = .ok (.single fields.content, rest) := by
    rw [hcons, List.cons_append, List.cons_append, readMarkup_of_ne _ hmark hask hslash,
      ← List.cons_append, ← List.cons_append, ← hcons, readOpening, hcut]
    simp
  have hscan := scan_markup hread
  simpa [Fields.tagStart_eq, singleEnd] using hscan

theorem closingName_of_clean {name : String} (h : CleanName name) :
    closingName name.toList = name.toList := by
  obtain ⟨c, cs, hlist⟩ := h.exists_cons
  have hspace : ∀ d ∈ name.toList, isSpace d = false := fun d hd => (ne_of_isNameChar (h.2 d hd)).1
  unfold closingName
  rw [if_neg, List.dropWhile_eq_self_iff.2, List.reverse_reverse]
  · intro hlen
    simpa using hspace _ (List.mem_reverse.1 (List.getElem_mem hlen))
  · simp [hlist, hspace c (by simp [hlist])]

theorem scan_closing {fields : Fields} (h : fields.Clean) (rest : List Char) :
    scan (fields.tagEnd ++ rest) = (scan rest).after (.closing fields.tag.toList) := by
  have hname : ∀ d ∈ fields.tag.toList, d ≠ '>' := fun d hd =>
    (ne_of_isNameChar (h.tag.2 d hd)).2.2.1
  have hclose : ∀ d ∈ '/' :: fields.tag.toList, d ≠ '>' := by
    intro d hd
    rcases List.mem_cons.1 hd with rfl | hd
    · decide
    · exact hname d hd
  have hcut := cutTag_closed hclose (foldl_quoteAfter_name h.tag) rest
  have hread : readMarkup ('/' :: fields.tag.toList ++ '>' :: rest)
      = .ok (.closing fields.tag.toList, rest) := by
    show readClosing _ = _
    rw [readClosing, hcut]
    show Except.ok (Markup.closing (closingName fields.tag.toList), rest) = _
    rw [closingName_of_clean h.tag]
  have hscan := scan_markup hread
  simpa [Fields.tagEnd] using hscan

/-! ### Cutting an element -/

theorem endsText_compactText (element : Element) (rest : List Char) :
    EndsText (element.compactText ++ rest) := by
  obtain ⟨fields, children⟩ := element
  refine Or.inr ?_
  rw [Element.compactText]
  split
  · exact ⟨_, by simp [Fields.tagStart_eq]; rfl⟩
  · exact ⟨_, by simp [Fields.tagStart_eq]; rfl⟩

theorem endsText_compactAll (children : List Element) (fields : Fields) (rest : List Char) :
    EndsText (compactAll children ++ (fields.tagEnd ++ rest)) := by
  cases children with
  | nil => exact Or.inr ⟨_, rfl⟩
  | cons child children =>
      rw [compactAll, List.append_assoc, List.append_assoc]
      exact endsText_compactText child _

/-- What an element is written as is cut into its pieces, whatever follows. -/
def Element.CutsWell (element : Element) : Prop :=
  ∀ rest, scan (element.compactText ++ rest) = (scan rest).afterAll element.pieces

/-- The tail of a child ends where the next child or the closing tag begins. -/
theorem scan_compactAll {children : List Element} (h : ∀ child ∈ children, child.CutsWell)
    (fields : Fields) (rest : List Char) :
    scan (compactAll children ++ (fields.tagEnd ++ rest))
      = (scan (fields.tagEnd ++ rest)).afterAll (piecesAll children) := by
  induction children with
  | nil => rfl
  | cons child children ih =>
      have hends := endsText_compactAll children fields rest
      rw [compactAll, piecesAll, List.append_assoc, List.append_assoc, h child (by simp),
        scan_dataText _ hends, ih (fun other hother => h other (by simp [hother])),
        ← Scan.afterAll_append, ← Scan.afterAll_append, List.append_assoc]

/-- **The compact form is cut into the pieces it was made of.** -/
theorem scan_compactText (element : Element) (h : element.Clean) : element.CutsWell := by
  induction element using Element.treeInduction with
  | mk fields children ih =>
      obtain ⟨hfields, hchildren⟩ := Element.every_mk.1 h
      have hall := scan_compactAll fun child hchild => ih child hchild (hchildren child hchild)
      intro rest
      rw [Element.compactText, Element.pieces]
      split
      · rw [scan_single hfields]
        rfl
      · have hends := endsText_compactAll children fields rest
        simp only [List.append_assoc, List.cons_append]
        rw [scan_opening hfields, scan_dataText _ hends, hall fields rest,
          scan_closing hfields, Scan.afterAll_cons, Scan.afterAll_append, Scan.afterAll_append]
        rfl

/-! ### Reading one piece -/

theorem closeName_eq_ok {names rest : List String} {name : String} :
    closeName names name = .ok rest ↔ names = name :: rest := by
  cases names with
  | nil => simp [closeName]
  | cons expected names =>
      rw [closeName, List.cons.injEq]
      by_cases hname : expected = name <;> simp [hname]

namespace Progress

theorem run_nil (progress : Progress) : progress.run [] = .ok progress := rfl

theorem run_cons (progress : Progress) (piece : Markup) (pieces : List Markup) :
    progress.run (piece :: pieces) = (progress.step piece).bind fun next => next.run pieces := rfl

theorem run_cons_of_ok {progress next : Progress} {piece : Markup} (pieces : List Markup)
    (h : progress.step piece = .ok next) : progress.run (piece :: pieces) = next.run pieces := by
  rw [run_cons, h]
  rfl

theorem step_text_escape (progress : Progress) (content : List Char) :
    progress.step (.text (escape content)) = .ok (progress.addText content) := by
  rw [step, unescape_escape]
  rfl

theorem step_opening_content (progress : Progress) {fields : Fields} (h : fields.Clean) :
    progress.step (.opening fields.content)
      = .ok (progress.enter fields.tag fields.attributes) := by
  rw [step, readTag_content h]
  rfl

theorem step_single_content (progress : Progress) {fields : Fields} (h : fields.Clean) :
    progress.step (.single fields.content)
      = progress.attach (Element.leaf (Fields.plain fields.tag fields.attributes)) := by
  rw [step, readTag_content h]
  rfl

/-- A closing tag that names the innermost open element completes it. -/
theorem step_closing (names : List String) (name : String) (elements : List Element)
    (element : Element) (root : Option Element) :
    step ⟨name :: names, element :: elements, root⟩ (.closing name.toList)
      = attach ⟨names, elements, root⟩ element := by
  rw [step, close, String.ofList_toList, closeName_eq_ok.2 rfl]
  rfl

/-! ### Putting an element together -/

theorem attach_inside (names : List String) (parent element : Element) (outer : List Element)
    (root : Option Element) :
    attach ⟨names, parent :: outer, root⟩ element
      = .ok ⟨names, parent.append element :: outer, root⟩ := rfl

/-- The pieces of character data extend what the innermost open element ends in. -/
theorem run_dataPieces (data : Option String) (names : List String) (element : Element)
    (outer : List Element) (root : Option Element) (more : List Markup) :
    run ⟨names, element :: outer, root⟩ (dataPieces data ++ more)
      = run ⟨names, (if data.getD "" = "" then element
          else element.addText (data.getD "").toList) :: outer, root⟩ more := by
  unfold dataPieces
  split
  · rfl
  · exact run_cons_of_ok more (step_text_escape _ _)

/-- Data that has been put where there was none. -/
theorem present_of_empty {data : Option String} (h : data.getD "" = "") : present data = none := by
  cases data with
  | none => rfl
  | some content => simp [present, show content = "" from h]

theorem present_of_ne {data : Option String} (h : data.getD "" ≠ "") :
    present data = extend none (data.getD "").toList := by
  cases data with
  | none => exact absurd rfl h
  | some content =>
      have hne : content ≠ "" := h
      simp [present, extend, hne]

/-- The text of an element without children is put in its place. -/
theorem addText_leaf (tag : String) (attributes : Attributes) (data : Option String) :
    (if data.getD "" = "" then Element.leaf (Fields.plain tag attributes)
      else (Element.leaf (Fields.plain tag attributes)).addText (data.getD "").toList)
      = ⟨⟨tag, attributes, present data, none⟩, []⟩ := by
  split
  · rename_i hempty
    rw [present_of_empty hempty]
    rfl
  · rename_i hdata
    rw [present_of_ne hdata]
    rfl

theorem mapLast_append {α : Type} (f : α → α) (init : List α) (last : α) :
    mapLast f (init ++ [last]) = init ++ [f last] := by
  induction init with
  | nil => rfl
  | cons a init ih =>
      cases init with
      | nil => rfl
      | cons b init =>
          show a :: mapLast f ((b :: init) ++ [last]) = _
          rw [ih]
          rfl

/-- The tail of a child that has just been attached is put in its place. -/
theorem addText_append (parent child : Element) (data : Option String) :
    (if data.getD "" = "" then parent.append (child.mapData present).withoutTail
      else (parent.append (child.mapData present).withoutTail).addText (data.getD "").toList)
      = parent.append { (child.mapData present) with tail := present data } := by
  split
  · rename_i hempty
    rw [present_of_empty hempty]
    rfl
  · rename_i hdata
    rw [present_of_ne hdata, Element.addText, if_neg (by simp [Element.append])]
    simp only [Element.append, mapLast_append]
    rfl

/-- The pieces of an element build the element: whatever has been read before, the element is
attached to it, with all empty data gone and without its tail. -/
def Builds (element : Element) : Prop :=
  ∀ (progress : Progress) (more : List Markup), progress.run (element.pieces ++ more)
    = (progress.attach (element.mapData present).withoutTail).bind fun next => next.run more

/-- Children are put behind those that are there, each with its tail. -/
theorem run_piecesAll {children : List Element} (h : ∀ child ∈ children, Builds child)
    (names : List String) (outer : List Element) (root : Option Element) (more : List Markup) :
    ∀ parent : Element, run ⟨names, parent :: outer, root⟩ (piecesAll children ++ more)
      = run ⟨names, ⟨parent.toFields, parent.children ++ children.map (Element.mapData present)⟩
          :: outer, root⟩ more := by
  induction children with
  | nil =>
      intro parent
      cases parent
      rw [List.map_nil, List.append_nil]
      rfl
  | cons child children ih =>
      intro parent
      rw [piecesAll, List.append_assoc, List.append_assoc, h child (by simp), attach_inside]
      show run _ (dataPieces child.tail ++ (piecesAll children ++ more)) = _
      rw [run_dataPieces, addText_append, ih (fun other hother => h other (by simp [hother]))]
      obtain ⟨childFields, grandchildren⟩ := child
      simp [Element.append, Element.mapData, Fields.mapData]

/-- **The pieces of an element build the element.** -/
theorem run_pieces (element : Element) (h : element.Clean) : Builds element := by
  induction element using Element.treeInduction with
  | mk fields children ih =>
      obtain ⟨hfields, hchildren⟩ := Element.every_mk.1 h
      have hall := run_piecesAll fun child hchild => ih child hchild (hchildren child hchild)
      have hwhole : (Element.mapData present ⟨fields, children⟩).withoutTail
          = ⟨⟨fields.tag, fields.attributes, present fields.text, none⟩,
              children.map (Element.mapData present)⟩ := by
        rw [Element.mapData_mk]
        rfl
      intro progress more
      rw [hwhole, Element.pieces]
      split
      · rename_i hempty
        simp only [Bool.and_eq_true, List.isEmpty_iff, String.isEmpty_iff] at hempty
        rw [List.singleton_append, run_cons, step_single_content _ hfields, hempty.2,
          present_of_empty hempty.1]
        rfl
      · obtain ⟨names, elements, root⟩ := progress
        simp only [List.append_assoc, List.cons_append, List.nil_append]
        rw [run_cons_of_ok _ (step_opening_content _ hfields)]
        show run ⟨fields.tag :: names, _ :: elements, root⟩ _ = _
        rw [run_dataPieces, addText_leaf, hall, run_cons, step_closing]
        rfl

end Progress

end Workbench.Xml
