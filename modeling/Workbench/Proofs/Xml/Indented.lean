/-
The indented form is read back as the element that was written, up to blanks around data.

The indented form of an element is the compact form of another one: the element in which the line
breaks and the indentation have become character data.  `Element.indented` is that element.  An
element with children begins with a line break and, unless it is blank, its text on a line of its
own; every child is followed by a line break, its tail in the same way, and the indentation of what
comes next, which is one level less behind the last child.  An element without children keeps its
text as it is, or loses it if it is blank.

With `indentedText_eq` everything about reading follows from the compact form, and the only thing
left to see is that `Element.indented` adds blanks at the ends of data and takes away nothing else.
-/
import Workbench.Proofs.Xml.Compact

namespace Workbench.Xml

/-! ### The element whose compact form is the indented one -/

/-- Data that is not blank throughout, on a line at a depth. -/
def rawLine (depth : Nat) (data : Option String) : List Char :=
  match visible data with
  | some content => lineAt depth content
  | none => []

/-- Data with line breaks and indentation: behind the end of a line come the data on a line of its
own at one depth and the indentation of the next line at another. -/
def spaced (depth next : Nat) (data : Option String) : Option String :=
  some (String.ofList ('\n' :: rawLine depth data ++ indentation next))

mutual

/-- The element at a depth with the line breaks and the indentation of its content. -/
def Element.indented (depth : Nat) : Element → Element
  | ⟨fields, []⟩ => ⟨{ fields with text := (visible fields.text).map String.ofList }, []⟩
  | ⟨fields, child :: children⟩ =>
      ⟨{ fields with text := spaced (depth + 1) (depth + 1) fields.text },
        indentedSiblings depth (child :: children)⟩

/-- The children of an element at a depth, each with the line break and the indentation behind
it. -/
def indentedSiblings (depth : Nat) : List Element → List Element
  | [] => []
  | e :: es =>
      { (e.indented (depth + 1)) with
        tail := spaced (depth + 1) (if es.isEmpty then depth else depth + 1) e.tail } ::
        indentedSiblings depth es

end

/-! ### Data that is shown -/

theorem visible_eq_some {data : Option String} {content : List Char}
    (h : visible data = some content) :
    data = some (String.ofList content) ∧ Text.allBlank content = false := by
  cases data with
  | none => cases h
  | some text =>
      obtain ⟨hcontent, hblank⟩ := Option.filter_eq_some_iff.1 h
      cases hcontent
      exact ⟨by rw [String.ofList_toList], by simpa using hblank⟩

theorem visible_eq_none {text : String} (h : visible (some text) = none) :
    Text.allBlank text.toList = true := by
  have hfilter := Option.filter_eq_none_iff.1 h text.toList rfl
  simpa using hfilter

/-- Data that is shown is not empty. -/
theorem ne_nil_of_visible {data : Option String} {content : List Char}
    (h : visible data = some content) : content ≠ [] := by
  rintro rfl
  have hblank := (visible_eq_some h).2
  cases hblank

/-! ### Blanks need no references -/

theorem escape_indentation (depth : Nat) : escape (indentation depth) = indentation depth := by
  have hspaces : ∀ n, escape (List.replicate n ' ') = List.replicate n ' ' := by
    intro n
    induction n with
    | zero => rfl
    | succ n ih =>
        rw [List.replicate_succ, escape, List.flatMap_cons]
        exact congrArg (' ' :: ·) ih
  exact hspaces _

theorem escape_lineAt (depth : Nat) (content : List Char) :
    escape (lineAt depth content) = lineAt depth (escape content) := by
  rw [lineAt, escape_append, escape_append, escape_indentation]
  rfl

theorem escape_rawLine (depth : Nat) (data : Option String) :
    escape (rawLine depth data) = dataLine depth data := by
  unfold rawLine dataLine
  cases visible data with
  | none => rfl
  | some content => exact escape_lineAt depth content

theorem dataText_spaced (depth next : Nat) (data : Option String) :
    dataText (spaced depth next data) = '\n' :: dataLine depth data ++ indentation next := by
  rw [dataText, spaced, Option.getD_some, String.toList_ofList, ← escape_rawLine,
    ← escape_indentation next, ← List.singleton_append, escape_append, escape_append,
    escape_indentation, escape_indentation]
  rfl

/-! ### One form as the other -/

theorem compactText_withTail (element : Element) (tail : Option String) :
    Element.compactText { element with tail := tail } = element.compactText := by
  cases element
  rfl

theorem compactText_text {fields : Fields} (h : fields.text.getD "" ≠ "")
    (children : List Element) :
    Element.compactText ⟨fields, children⟩
      = fields.tagStart ++ '>' :: dataText fields.text ++ compactAll children ++
          fields.tagEnd := by
  rw [Element.compactText, if_neg (by simp [h])]

/-- The indented form of one element, as the compact form of another. -/
def Element.LaysOut (element : Element) : Prop :=
  ∀ depth, element.indentedText depth
    = indentation depth ++ (element.indented depth).compactText ++ ['\n']

/-- Between the opening tag of an element at a depth and its closing tag. -/
theorem indentedAll_eq (depth : Nat) {children : List Element}
    (h : ∀ child ∈ children, child.LaysOut) (hne : children ≠ []) :
    indentedAll (depth + 1) children ++ indentation depth
      = indentation (depth + 1) ++ compactAll (indentedSiblings depth children) := by
  induction children with
  | nil => exact absurd rfl hne
  | cons child children ih =>
      rw [indentedAll, indentedSiblings, compactAll, compactText_withTail, h child (by simp)]
      show _ = indentation (depth + 1) ++ ((child.indented (depth + 1)).compactText ++
        dataText (spaced (depth + 1) (if children.isEmpty then depth else depth + 1) child.tail) ++
        compactAll (indentedSiblings depth children))
      rw [dataText_spaced]
      cases children with
      | nil => simp [indentedAll, indentedSiblings, compactAll]
      | cons next others =>
          have hrest := ih (fun other hother => h other (by simp [hother])) (by simp)
          simp only [List.append_assoc] at hrest ⊢
          rw [hrest]
          simp

/-- **The indented form is the compact form of the element with its blanks.** -/
theorem indentedText_eq (element : Element) : element.LaysOut := by
  induction element using Element.treeInduction with
  | mk fields children ih =>
      intro depth
      cases children with
      | nil =>
          rw [Element.indentedText, Element.indented]
          cases hvisible : visible fields.text with
          | none =>
              simp [Element.compactText, lineAt, Fields.tagStart]
          | some content =>
              have hne : String.ofList content ≠ "" := by
                intro hempty
                exact ne_nil_of_visible hvisible (by simpa using hempty)
              rw [compactText_text (by exact hne)]
              simp [lineAt, dataText, compactAll, Fields.tagStart, Fields.tagEnd]
      | cons child children =>
          have hall := indentedAll_eq depth ih (by simp)
          rw [Element.indentedText, Element.indented, compactText_text (by simp [spaced]),
            dataText_spaced]
          simp only [lineAt, List.append_assoc, List.cons_append, List.nil_append] at hall ⊢
          rw [← List.append_assoc (indentedAll (depth + 1) (child :: children)), hall]
          simp [Fields.tagStart, Fields.tagEnd]

/-! ### The names stay -/

section Names

variable {P : Fields → Prop}

/-- A property that depends on tag and attributes only holds throughout the laid out children. -/
theorem every_indentedSiblings
    (hP : ∀ (fields : Fields) (text tail : Option String),
      P fields → P { fields with text := text, tail := tail })
    (depth : Nat) {children : List Element}
    (h : ∀ child ∈ children, (child.indented (depth + 1)).Every P) :
    ∀ child ∈ indentedSiblings depth children, child.Every P := by
  induction children with
  | nil =>
      intro child hchild
      cases hchild
  | cons first others ih =>
      intro child hchild
      rw [indentedSiblings] at hchild
      rcases List.mem_cons.1 hchild with rfl | hothers
      · obtain ⟨hroot, hbelow⟩ := Element.every_iff.1 (h first (by simp))
        exact Element.every_mk.2 ⟨hP _ _ _ hroot, hbelow⟩
      · exact ih (fun other hother => h other (by simp [hother])) child hothers

theorem every_indented
    (hP : ∀ (fields : Fields) (text tail : Option String),
      P fields → P { fields with text := text, tail := tail })
    (element : Element) (h : element.Every P) : ∀ depth, (element.indented depth).Every P := by
  induction element using Element.treeInduction with
  | mk fields children ih =>
      intro depth
      obtain ⟨hfields, hchildren⟩ := Element.every_mk.1 h
      have hall := every_indentedSiblings hP depth fun child hchild =>
        ih child hchild (hchildren child hchild) (depth + 1)
      cases children with
      | nil => exact Element.every_mk.2 ⟨hP _ _ fields.tail hfields, by simp⟩
      | cons child children => exact Element.every_mk.2 ⟨hP _ _ fields.tail hfields, hall⟩

theorem clean_indented {element : Element} (h : element.Clean) (depth : Nat) :
    (element.indented depth).Clean :=
  every_indented (fun _ _ _ h => ⟨h.tag, h.names, h.distinct⟩) element h depth

end Names

/-! ### Only blanks are added -/

theorem allBlank_indentation (depth : Nat) : Text.allBlank (indentation depth) = true := by
  refine Text.allBlank_iff.2 fun c hc => ?_
  rw [List.eq_of_mem_replicate hc]
  decide

theorem trimmed_of_allBlank {content : String} (h : Text.allBlank content.toList = true) :
    trimmed (some content) = none := by
  simp [trimmed, present, Text.trim_allBlank h]

/-- Data that is not shown is blank throughout. -/
theorem trimmed_of_visible_eq_none {data : Option String} (h : visible data = none) :
    trimmed data = none := by
  cases data with
  | none => rfl
  | some text => exact trimmed_of_allBlank (visible_eq_none h)

/-- Where there is nothing to show, there are only blanks after laying out. -/
theorem blank_spaced (depth next : Nat) {data : Option String} (h : visible data = none) :
    Blank (spaced depth next data) := by
  show Text.allBlank (String.ofList ('\n' :: rawLine depth data ++ indentation next)).toList = true
  have hfeed : Text.allBlank ['\n'] = true := by decide
  rw [String.toList_ofList, rawLine, h]
  exact Text.allBlank_append hfeed (allBlank_indentation next)

theorem trimmed_spaced (depth next : Nat) (data : Option String) :
    trimmed (spaced depth next data) = trimmed data := by
  have hfeed : Text.allBlank ['\n'] = true := by decide
  cases hvisible : visible data with
  | none =>
      rw [trimmed_of_visible_eq_none hvisible]
      exact trimmed_of_allBlank (blank_spaced depth next hvisible)
  | some content =>
      -- Blanks are taken off at either end until only the data is left.
      have htrim : Text.trim ('\n' :: rawLine depth data ++ indentation next)
          = Text.trim content := by
        rw [rawLine, hvisible]
        show Text.trim (['\n'] ++ (indentation depth ++ content ++ ['\n']) ++ indentation next) = _
        rw [Text.trim_append_blank (allBlank_indentation next), Text.trim_blank_append hfeed,
          Text.trim_append_blank hfeed, Text.trim_blank_append (allBlank_indentation depth)]
      rw [(visible_eq_some hvisible).1]
      rw [(visible_eq_some hvisible).1] at htrim
      simp only [trimmed, spaced, Option.map_some, String.toList_ofList, htrim]

theorem map_visible_eq_shown (data : Option String) :
    (visible data).map String.ofList = shown data := by
  cases data with
  | none => rfl
  | some content =>
      rw [visible, shown, Option.map_some, Option.filter_some, Option.filter_some]
      by_cases hblank : Text.allBlank content.toList = true
      · simp [hblank]
      · simp [hblank]

theorem trimmed_shown (data : Option String) : trimmed (shown data) = trimmed data := by
  rw [← map_visible_eq_shown]
  cases hvisible : visible data with
  | none => exact (trimmed_of_visible_eq_none hvisible).symm
  | some content => rw [(visible_eq_some hvisible).1, Option.map_some]

/-! ### Views that a layout does not change -/

/-- A view of data that does not show the blanks which a layout puts around them. -/
def SeesThrough (view : Option String → Option String) (data : Option String) : Prop :=
  ∀ depth next, view (spaced depth next data) = view data

section View

variable {view : Option String → Option String}

theorem mapData_siblings (depth : Nat) {children : List Element}
    (h : ∀ child ∈ children, (child.indented (depth + 1)).mapData view = child.mapData view)
    (htails : ∀ child ∈ children, SeesThrough view child.tail) :
    (indentedSiblings depth children).map (Element.mapData view)
      = children.map (Element.mapData view) := by
  induction children with
  | nil => rfl
  | cons first others ih =>
      have hothers := ih (fun other hother => h other (by simp [hother]))
        fun other hother => htails other (by simp [hother])
      rw [indentedSiblings, List.map_cons, List.map_cons, hothers, Element.mapData_withTail,
        h first (by simp), htails first (by simp), ← Element.mapData_withTail]
      cases first
      rfl

/-- **A view of an element shows nothing of its layout** if it drops what is blank and sees through
the blanks around the data beside elements. -/
theorem mapData_indented (hview : ∀ data, view (shown data) = view data) (element : Element)
    (h : ∀ data ∈ element.dataBeside, SeesThrough view data) :
    ∀ depth, (element.indented depth).mapData view = element.mapData view := by
  induction element using Element.treeInduction with
  | mk fields children ih =>
      intro depth
      have hbelow : ∀ child ∈ children, ∀ data ∈ child.dataBeside ++ [child.tail],
          SeesThrough view data := fun child hchild data hdata =>
        h data (Element.mem_dataBeside_child hchild hdata)
      have hall := mapData_siblings depth
        (fun child hchild => ih child hchild
          (fun data hdata => hbelow child hchild data (by simp [hdata])) (depth + 1))
        fun child hchild => hbelow child hchild child.tail (by simp)
      cases children with
      | nil =>
          rw [Element.indented, Element.mapData_mk, Element.mapData_mk, map_visible_eq_shown]
          simp only [Fields.mapData, hview]
      | cons child children =>
          have htext := h fields.text (Element.mem_dataBeside_text (by simp))
          rw [Element.indented, Element.mapData_mk, Element.mapData_mk, hall]
          simp only [Fields.mapData, htext (depth + 1) (depth + 1)]

end View

/-- **Laying out an element changes nothing between the blanks of its data.** -/
theorem mapData_trimmed_indented (element : Element) (depth : Nat) :
    (element.indented depth).mapData trimmed = element.mapData trimmed :=
  mapData_indented trimmed_shown element
    (fun data _ depth next => trimmed_spaced depth next data) depth

/-! ### Reading the indented form -/

/-- The element that stands alone, without the blanks around its data. -/
def Element.stripped (element : Element) : Element :=
  (element.mapData trimmed).withoutTail

theorem trimmed_present (data : Option String) : trimmed (present data) = trimmed data := by
  cases data with
  | none => rfl
  | some content =>
      by_cases hempty : content = ""
      · subst hempty
        decide
      · have hpresent : present (some content) = some content := by
          rw [present, Option.filter_some, if_pos (by simpa using hempty)]
        rw [hpresent]

/-- Empty data and the tail of the root do not count between blanks. -/
theorem stripped_reread (element : Element) : element.reread.stripped = element.stripped := by
  have hcomp : trimmed ∘ present = trimmed := funext trimmed_present
  rw [Element.stripped, Element.reread, Element.withoutTail_mapData_withoutTail,
    Element.mapData_mapData, hcomp, Element.stripped]

theorem stripped_indented (element : Element) (depth : Nat) :
    (element.indented depth).stripped = element.stripped := by
  rw [Element.stripped, mapData_trimmed_indented, Element.stripped]

/-- The declaration is an instruction and the end of a line. -/
theorem scan_declaration {rest : List Char} (hrest : EndsText rest) :
    ∃ content, scan (declaration ++ rest)
      = (scan rest).afterAll [.instruction content, .text ['\n']] := by
  have hread : readMarkup ("?xml version=\"1.0\" ?>".toList ++ (['\n'] ++ rest))
      = .ok (.instruction "xml version=\"1.0\" ".toList, ['\n'] ++ rest) := rfl
  refine ⟨"xml version=\"1.0\" ".toList, (scan_markup hread).trans ?_⟩
  rw [scan_text (by simp) (by simp) hrest]
  rfl

theorem scan_lineEnd : scan ['\n'] = ⟨[.text ['\n']], none⟩ := by
  have htext : scan (['\n'] ++ []) = (scan []).after (.text ['\n']) :=
    scan_text (by simp) (by simp) (Or.inl rfl)
  rw [scan] at htext
  exact htext

/-- The indented form is read back as the element with its blanks. -/
theorem read_pretty_eq {element : Element} (h : element.Clean) :
    read element.pretty = .ok (element.indented 0).reread := by
  have hclean := clean_indented h 0
  have htext : declaration ++ element.indentedText 0
      = declaration ++ ((element.indented 0).compactText ++ ['\n']) := by
    rw [indentedText_eq element 0]
    rfl
  obtain ⟨content, hscan⟩ := scan_declaration (endsText_compactText (element.indented 0) ['\n'])
  have hidle : Idle (.text ['\n']) := idle_text ['\n']
  have hroot := root_pieces hclean [.instruction content, .text ['\n']] [.text ['\n']]
    (by simp [hidle, idle_instruction]) (by simp [hidle])
  unfold read parse
  rw [Element.pretty, String.toList_ofList, htext]
  rw [show withoutMark (declaration ++ ((element.indented 0).compactText ++ ['\n']))
      = declaration ++ ((element.indented 0).compactText ++ ['\n']) from withoutMark_open _]
  rw [hscan, scan_compactText _ hclean, scan_lineEnd]
  exact congrArg (Except.mapError Fault.failure) hroot

/-- **The indented form of an element with clean names is read back as that element, up to the
blanks around its data.** -/
theorem read_pretty (element : Element) (h : element.Clean) :
    ∃ result, read element.pretty = .ok result ∧ result.stripped = element.stripped := by
  refine ⟨(element.indented 0).reread, read_pretty_eq h, ?_⟩
  rw [stripped_reread, stripped_indented]

/-- Text around and between children, blank data, and blanks at the ends of data. -/
def mixed : Element :=
  ⟨⟨"p", [("k", " v\n"), ("é", "<\"'&>")], some "\t before\u00a0", some "gone"⟩,
    [⟨⟨"b", [], some " bold ", some "after\n & more"⟩, []⟩,
      ⟨⟨"c", [], some "\u2003", some "  "⟩, [⟨⟨"d", [], none, some "]]>"⟩, []⟩]⟩]⟩

theorem read_pretty_mixed :
    mixed.Clean ∧
      ∃ result, read mixed.pretty = .ok result ∧ result.stripped = mixed.stripped :=
  have h : mixed.Clean := by decide
  ⟨h, read_pretty mixed h⟩

end Workbench.Xml
