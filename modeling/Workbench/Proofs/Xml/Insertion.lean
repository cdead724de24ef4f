/-
What can be put into a document.

A comment leaves no trace, wherever it stands outside of other markup; between two texts it joins
them.  A character data section is as good as its characters escaped.  Outside of the root both, and
every text that can be read, leave no trace at all: characters go into the innermost open element,
and there is none.

A comment and a section end at their first terminator, so what their contents must not hold is the
terminator itself and nothing less: a bracket alone, or hyphens alone, are content.

All of this is about a cut where no reference is under way.  Where one is, what follows the cut
decides whether the text can be read: escaped characters may finish the reference, a section or a
comment never does.
-/
import Mathlib
import Workbench.Proofs.Xml.Junction

namespace Workbench.Xml

/-! ### Comments and sections -/

/-- A piece ends at the first bracket that closes it. -/
theorem cutAfter_body {closes : List Char → Bool} {before body : List Char}
    (hearly : ∀ front behind, body = front ++ '>' :: behind →
      ¬ closes (front.reverse ++ before) = true)
    (hclose : closes (body.reverse ++ before) = true) (rest : List Char) :
    cutAfter closes before (body ++ '>' :: rest) = some (before.reverse ++ body, rest) := by
  induction body generalizing before with
  | nil => rw [List.nil_append, cutAfter, if_pos ⟨rfl, hclose⟩, List.append_nil]
  | cons c body ih =>
      have hc : ¬(c = '>' ∧ closes before = true) := by
        rintro ⟨rfl, hcloses⟩
        exact hearly [] body rfl hcloses
      rw [List.cons_append, cutAfter, if_neg hc, ih]
      · simp
      · intro front behind hbody
        have hlater := hearly (c :: front) behind (by rw [hbody, List.cons_append])
        simpa using hlater
      · simpa using hclose

section Terminator

variable {q : Char} {content front behind : List Char}

theorem exists_of_concat (hq : q ≠ '>') (h : content ++ [q] = front ++ '>' :: behind) :
    ∃ more, content = front ++ '>' :: more := by
  rcases List.eq_nil_or_concat behind with rfl | ⟨more, last, rfl⟩
  · obtain ⟨-, hlast⟩ := List.append_inj' h rfl
    exact absurd (List.cons.inj hlast).1 hq
  · have hparts : content ++ [q] = (front ++ '>' :: more) ++ [last] := by simpa using h
    exact ⟨more, (List.append_inj' hparts rfl).1⟩

/-- A terminator that ends before the last one is part of the content. -/
theorem infix_of_early (hq : q ≠ '>')
    (h : content ++ [q, q] = front ++ q :: q :: '>' :: behind) : [q, q, '>'] <:+: content := by
  have hparts : (content ++ [q]) ++ [q] = (front ++ [q, q]) ++ '>' :: behind := by simpa using h
  obtain ⟨more, hmore⟩ := exists_of_concat hq hparts
  obtain ⟨rest, hrest⟩ := exists_of_concat hq hmore
  exact ⟨front, rest, by simp [hrest]⟩

/-- What a piece opens with is no part of a terminator, because it is too short or because it does
not hold the character. -/
theorem infix_of_early_behind (hq : q ≠ '>') {opener : List Char}
    (hopener : opener.length ≤ front.length ∨ q ∉ opener)
    (h : opener ++ (content ++ [q, q]) = front ++ q :: q :: '>' :: behind) :
    [q, q, '>'] <:+: content := by
  rcases List.append_eq_append_iff.1 h with ⟨more, -, hmore⟩ | ⟨more, hparts, hmore⟩
  · exact infix_of_early hq hmore
  · cases more with
    | nil =>
        have hwhole : content ++ [q, q] = [] ++ q :: q :: '>' :: behind := hmore.symm
        exact infix_of_early hq hwhole
    | cons c more =>
        obtain ⟨rfl, -⟩ := List.cons.inj hmore
        rcases hopener with hlength | hmem
        · rw [hparts, List.length_append, List.length_cons] at hlength
          omega
        · rw [hparts] at hmem
          simp at hmem

/-- **A piece ends at its first terminator.** -/
theorem cutAfter_terminated {closes : List Char → Bool} {opener : List Char} (hq : q ≠ '>')
    (hcontent : ¬ [q, q, '>'] <:+: content)
    (hends : ∀ text, closes text.reverse = true →
      ∃ init, text = init ++ [q, q] ∧ (opener.length ≤ init.length ∨ q ∉ opener))
    (hclose : closes (opener ++ (content ++ [q, q])).reverse = true) :
    cutAfter closes [] (opener ++ (content ++ [q, q, '>'])) =
      some (opener ++ (content ++ [q, q]), []) := by
  have hbody : opener ++ (content ++ [q, q, '>']) = (opener ++ (content ++ [q, q])) ++ '>' :: [] := by
    simp
  rw [hbody, cutAfter_body]
  · rfl
  · intro text rest hparts hcloses
    rw [List.append_nil] at hcloses
    obtain ⟨init, rfl, hopener⟩ := hends text hcloses
    rw [List.append_assoc] at hparts
    exact hcontent (infix_of_early_behind hq hopener hparts)
  · rw [List.append_nil]
    exact hclose

end Terminator

/-- What a comment is written as, behind its opening bracket. -/
def commentText (content : List Char) : List Char :=
  ['!', '-', '-'] ++ (content ++ ['-', '-', '>'])

/-- What a character data section is written as, behind its opening bracket. -/
def sectionText (content : List Char) : List Char :=
  ['!', '[', 'C', 'D', 'A', 'T', 'A', '['] ++ (content ++ [']', ']', '>'])

theorem readMarkup_commentText {content : List Char} (h : ¬ ['-', '-', '>'] <:+: content) :
    readMarkup (commentText content) = .ok (.comment content, []) := by
  have hends : ∀ text, closesComment text.reverse = true →
      ∃ init, text = init ++ ['-', '-'] ∧ (['!', '-', '-'].length ≤ init.length ∨
        '-' ∉ ['!', '-', '-']) := by
    intro text htext
    unfold closesComment at htext
    split at htext
    · rename_i x y z rest hreverse
      rw [List.reverse_eq_iff] at hreverse
      exact ⟨(x :: y :: z :: rest).reverse, by simp [hreverse], Or.inl (by simp)⟩
    · cases htext
  have hclose : closesComment (['!', '-', '-'] ++ (content ++ ['-', '-'])).reverse = true := by
    have hreverse : (['!', '-', '-'] ++ (content ++ ['-', '-'])).reverse
        = '-' :: '-' :: (content.reverse ++ ['-', '-', '!']) := by simp
    rw [hreverse]
    rcases content.reverse with _ | ⟨x, _ | ⟨y, _ | ⟨z, rest⟩⟩⟩ <;> rfl
  have hcut := cutAfter_terminated (by decide) h hends hclose
  show readComment (commentText content) = _
  rw [readComment, commentText, hcut]
  simp

theorem readMarkup_sectionText {content : List Char} (h : ¬ [']', ']', '>'] <:+: content) :
    readMarkup (sectionText content) = .ok (.data (Utf8.encode (String.ofList content)), []) := by
  have hends : ∀ text, closesData text.reverse = true →
      ∃ init, text = init ++ [']', ']'] ∧
        (['!', '[', 'C', 'D', 'A', 'T', 'A', '['].length ≤ init.length ∨
          ']' ∉ ['!', '[', 'C', 'D', 'A', 'T', 'A', '[']) := by
    intro text htext
    unfold closesData at htext
    split at htext
    · rename_i rest hreverse
      rw [List.reverse_eq_iff] at hreverse
      exact ⟨rest.reverse, by simp [hreverse], Or.inr (by decide)⟩
    · cases htext
  have hclose : closesData
      (['!', '[', 'C', 'D', 'A', 'T', 'A', '['] ++ (content ++ [']', ']'])).reverse = true := by
    simp [closesData]
  have hcut := cutAfter_terminated (by decide) h hends hclose
  show readData (sectionText content) = _
  rw [readData, sectionText, hcut]
  simp

/-! ### Comments -/

theorem toList_comment (before content after : String) :
    (before ++ "<!--" ++ content ++ "-->" ++ after).toList
      = before.toList ++ '<' :: (commentText content.toList ++ after.toList) := by
  simp [commentText, String.toList_append]

theorem read_append_iff {before after : String} (h : EndsOutside before.toList)
    (hsettled : EndsSettled before.toList) {element : Element} :
    read (before ++ after) = .ok element ↔ Joins before.toList after.toList element := by
  rw [read_eq_ok, String.toList_append, leadsTo_append h hsettled]

/-- **A comment leaves no trace.**  At the edge of markup a document is accepted with it exactly if
it is without it, as the same element.  Between two texts a comment joins them: the element is the
one of the document in which they are one text, provided that the comment tears no reference
apart. -/
theorem read_comment {before content after : String}
    (hcontent : ¬ ['-', '-', '>'] <:+: content.toList) (element : Element) :
    (AtMarkup before.toList after.toList →
        (read (before ++ "<!--" ++ content ++ "-->" ++ after) = .ok element ↔
          read (before ++ after) = .ok element)) ∧
      (EndsOutside before.toList →
        (read (before ++ "<!--" ++ content ++ "-->" ++ after) = .ok element ↔
          EndsSettled before.toList ∧ read (before ++ after) = .ok element)) := by
  have hcomment : EndsOutside before.toList →
      (read (before ++ "<!--" ++ content ++ "-->" ++ after) = .ok element ↔
        Joins before.toList after.toList element) := by
    intro hout
    rw [read_eq_ok, toList_comment, leadsTo_insert hout (readMarkup_commentText hcontent), Joins]
    constructor
    · rintro ⟨next, later, hnext, hlater, hleads⟩
      cases hlater
      exact ⟨next, hnext, hleads⟩
    · rintro ⟨next, hnext, hleads⟩
      exact ⟨next, next, hnext, rfl, hleads⟩
  constructor
  · intro hat
    rw [hcomment hat.outside, read_eq_ok, String.toList_append, hat.leadsTo_append]
  · intro hout
    rw [hcomment hout]
    constructor
    · intro hjoins
      exact ⟨hjoins.settled, (read_append_iff hout hjoins.settled).2 hjoins⟩
    · rintro ⟨hsettled, hread⟩
      exact (read_append_iff hout hsettled).1 hread

/-- A comment that holds brackets and hyphens, between a reference and a tag. -/
theorem read_comment_bracketed :
    AtMarkup "<a>x &lt; y".toList "<b q='>'/>z</a>".toList ∧
      ¬ ['-', '-', '>'] <:+: "->--<!-- >".toList ∧
      read "<a>x &lt; y<!--->--<!-- >--><b q='>'/>z</a>"
        = .ok ⟨⟨"a", [], some "x < y", none⟩, [⟨⟨"b", [("q", ">")], none, some "z"⟩, []⟩]⟩ := by
  have hscan : scan "<a>x &lt; y".toList = ⟨[.opening "a".toList, .text "x &lt; y".toList], none⟩ := by
    cbv
  have hat : AtMarkup "<a>x &lt; y".toList "<b q='>'/>z</a>".toList :=
    ⟨by rw [EndsOutside, hscan], Or.inl ⟨_, rfl⟩⟩
  have hcontent : ¬ ['-', '-', '>'] <:+: "->--<!-- >".toList := by decide
  refine ⟨hat, hcontent, ?_⟩
  have hplain : read ("<a>x &lt; y" ++ "<b q='>'/>z</a>")
      = .ok ⟨⟨"a", [], some "x < y", none⟩, [⟨⟨"b", [("q", ">")], none, some "z"⟩, []⟩]⟩ := by cbv
  exact ((read_comment hcontent _).1 hat).2 hplain

/-! ### Character data sections -/

theorem toList_section (before content after : String) :
    (before ++ "<![CDATA[" ++ content ++ "]]>" ++ after).toList
      = before.toList ++ '<' :: (sectionText content.toList ++ after.toList) := by
  simp [sectionText, String.toList_append]

theorem read_section_iff {before content after : String}
    (hcontent : ¬ [']', ']', '>'] <:+: content.toList) (h : EndsOutside before.toList)
    {element : Element} :
    read (before ++ "<![CDATA[" ++ content ++ "]]>" ++ after) = .ok element ↔
      ∃ next, Progress.start.run (scan before.toList).pieces = .ok next ∧
        (scan after.toList).LeadsTo (next.addText content.toList) element := by
  have hstep : ∀ progress : Progress,
      progress.step (.data (Utf8.encode (String.ofList content.toList)))
        = .ok (progress.addText content.toList) := by
    intro progress
    rw [String.ofList_toList, Progress.step, Utf8.decode_encode]
    rfl
  rw [read_eq_ok, toList_section, leadsTo_insert h (readMarkup_sectionText hcontent)]
  simp only [hstep, Except.ok.injEq]
  constructor
  · rintro ⟨next, later, hnext, rfl, hleads⟩
    exact ⟨next, hnext, hleads⟩
  · rintro ⟨next, hnext, hleads⟩
    exact ⟨next, _, hnext, rfl, hleads⟩

/-- A text between two parts goes where its characters would. -/
theorem read_text_iff {before text after : String} {content : List Char}
    (htext : ∀ c ∈ text.toList, c ≠ '<') (hcontent : StandsFor text.toList content)
    (h : EndsOutside before.toList) (hsettled : EndsSettled before.toList) {element : Element} :
    read (before ++ text ++ after) = .ok element ↔
      ∃ next, Progress.start.run (scan before.toList).pieces = .ok next ∧
        (scan after.toList).LeadsTo (next.put content) element := by
  rw [String.append_assoc, read_append_iff h hsettled, Joins, String.toList_append]
  simp only [leadsTo_text htext hcontent]

/-- **A character data section is as good as its characters escaped**, unless a reference is under
way in front of it: that is never finished by a section, but it may be by escaped characters. -/
theorem read_section_iff_escaped {before content after : String} (hne : content ≠ "")
    (hcontent : ¬ [']', ']', '>'] <:+: content.toList) (h : EndsOutside before.toList)
    (element : Element) :
    read (before ++ "<![CDATA[" ++ content ++ "]]>" ++ after) = .ok element ↔
      EndsSettled before.toList ∧
        read (before ++ String.ofList (escape content.toList) ++ after) = .ok element := by
  have htext : ∀ c ∈ (String.ofList (escape content.toList)).toList, c ≠ '<' := by
    intro c hc
    rw [String.toList_ofList] at hc
    exact ne_open_of_mem_escape hc
  have hstands : StandsFor (String.ofList (escape content.toList)).toList content.toList := by
    rw [String.toList_ofList]
    exact standsFor_escape content.toList
  have hput : ∀ progress : Progress,
      progress.put content.toList = progress.addText content.toList := by
    intro progress
    exact progress.put_of_ne fun hnil => hne (String.toList_eq_nil_iff.1 hnil)
  rw [read_section_iff hcontent h]
  constructor
  · rintro ⟨next, hnext, hleads⟩
    have hsettled : EndsSettled before.toList := Progress.settledLast_of_run hnext
    refine ⟨hsettled, (read_text_iff htext hstands h hsettled).2 ⟨next, hnext, ?_⟩⟩
    rw [hput]
    exact hleads
  · rintro ⟨hsettled, hread⟩
    obtain ⟨next, hnext, hleads⟩ := (read_text_iff htext hstands h hsettled).1 hread
    rw [hput] at hleads
    exact ⟨next, hnext, hleads⟩

theorem read_section_iff_escaped_nested :
    EndsOutside "<a><b>1 &lt; 2</b>x".toList ∧ EndsSettled "<a><b>1 &lt; 2</b>x".toList ∧
      ¬ [']', ']', '>'] <:+: "<c> & ]] ]>".toList ∧
      read "<a><b>1 &lt; 2</b>x<![CDATA[<c> & ]] ]>]]></a>"
        = .ok ⟨⟨"a", [], none, none⟩, [⟨⟨"b", [], some "1 < 2", some "x<c> & ]] ]>"⟩, []⟩]⟩ := by
  have hscan : scan "<a><b>1 &lt; 2</b>x".toList
      = ⟨[.opening "a".toList, .opening "b".toList, .text "1 &lt; 2".toList, .closing "b".toList,
          .text "x".toList], none⟩ := by cbv
  have hout : EndsOutside "<a><b>1 &lt; 2</b>x".toList := by rw [EndsOutside, hscan]
  have hsettled : EndsSettled "<a><b>1 &lt; 2</b>x".toList := by
    intro raw hraw
    rw [hscan] at hraw
    cases hraw
    exact (StandsFor.char (by decide) StandsFor.nil).settled
  have hcontent : ¬ [']', ']', '>'] <:+: "<c> & ]] ]>".toList := by decide
  have hescaped : read ("<a><b>1 &lt; 2</b>x" ++ String.ofList (escape "<c> & ]] ]>".toList) ++
      "</a>")
        = .ok ⟨⟨"a", [], none, none⟩, [⟨⟨"b", [], some "1 < 2", some "x<c> & ]] ]>"⟩, []⟩]⟩ := by
    cbv
  have hjoined : "<a><b>1 &lt; 2</b>x<![CDATA[<c> & ]] ]>]]></a>"
      = "<a><b>1 &lt; 2</b>x" ++ "<![CDATA[" ++ "<c> & ]] ]>" ++ "]]>" ++ "</a>" := by decide
  refine ⟨hout, hsettled, hcontent, ?_⟩
  rw [hjoined]
  exact (read_section_iff_escaped (by decide) hcontent hout _).2 ⟨hsettled, hescaped⟩

/-- Escaped characters may finish a reference that the text in front of them begins. -/
theorem read_section_unfinished :
    ¬ ∀ before content after : String, AtMarkup before.toList after.toList →
      openAt before.toList ≠ 0 → content ≠ "" → ¬ [']', ']', '>'] <:+: content.toList →
        ∀ element, read (before ++ "<![CDATA[" ++ content ++ "]]>" ++ after) = .ok element ↔
          read (before ++ String.ofList (escape content.toList) ++ after) = .ok element := by
  intro h
  have hscan : scan "<a>&am".toList = ⟨[.opening "a".toList, .text "&am".toList], none⟩ := by cbv
  have hat : AtMarkup "<a>&am".toList "</a>".toList :=
    ⟨by rw [EndsOutside, hscan], Or.inl ⟨_, rfl⟩⟩
  have hinside : openAt "<a>&am".toList ≠ 0 := by
    rw [openAt, hscan]
    decide
  have hcontent : ¬ [']', ']', '>'] <:+: "p;".toList := by decide
  have hescaped : read ("<a>&am" ++ String.ofList (escape "p;".toList) ++ "</a>")
      = .ok ⟨⟨"a", [], some "&", none⟩, []⟩ := by cbv
  have hread := (h _ _ _ hat hinside (by decide) hcontent _).2 hescaped
  obtain ⟨next, hnext, -⟩ := (read_section_iff hcontent hat.outside).1 hread
  have hlast : (scan "<a>&am".toList).pieces.getLast? = some (.text "&am".toList) := by
    rw [hscan]
    rfl
  have hsemicolon := Progress.settledLast_of_run hnext _ hlast [] _ rfl
  exact absurd hsemicolon (by decide)

/-! ### Outside of the root -/

/-- The characters outside of the root, which is where no element is open. -/
def Scan.stray (scan : Scan) : List Char :=
  (nested 0 scan.pieces).flatMap fun row => if row.1 = 0 then row.2.content else []

theorem elements_eq_nil {before : List Char} {next : Progress} (h : openAt before = 0)
    (hnext : Progress.start.run (scan before).pieces = .ok next) : next.elements = [] := by
  have hbare : Progress.start.Bare := fun element helement => by cases helement
  have hlength := Progress.length_run hbare hnext
  exact List.eq_nil_of_length_eq_zero (hlength.trans h)

/-- **Outside of the root characters leave no trace**, whatever they are: a document is accepted with
them exactly if it is without them, as the same element. -/
theorem read_stray {before after : String} (hout : EndsOutside before.toList)
    (hsettled : EndsSettled before.toList) (hclosed : openAt before.toList = 0)
    (element : Element) :
    (∀ text : String, (∀ c ∈ text.toList, c ≠ '<') → (∃ content, unescape text.toList = .ok content) →
        (read (before ++ text ++ after) = .ok element ↔ read (before ++ after) = .ok element)) ∧
      ∀ content : String, ¬ [']', ']', '>'] <:+: content.toList →
        (read (before ++ "<![CDATA[" ++ content ++ "]]>" ++ after) = .ok element ↔
          read (before ++ after) = .ok element) := by
  rw [read_append_iff hout hsettled, Joins]
  constructor
  · rintro text htext ⟨content, hcontent⟩
    rw [read_text_iff htext (unescape_eq_ok.1 hcontent) hout hsettled]
    refine exists_congr fun next => and_congr_right fun hnext => ?_
    rw [Progress.put_of_closed (elements_eq_nil hclosed hnext)]
  · intro content hcontent
    rw [read_section_iff hcontent hout]
    refine exists_congr fun next => and_congr_right fun hnext => ?_
    rw [Progress.addText, elements_eq_nil hclosed hnext]

/-- Behind the root, with a text before and a text after it. -/
theorem read_stray_behind :
    EndsOutside "x<a/>".toList ∧ EndsSettled "x<a/>".toList ∧ openAt "x<a/>".toList = 0 ∧
      read "x<a/>&lt;" = .ok ⟨⟨"a", [], none, none⟩, []⟩ ∧
      read "x<a/><![CDATA[y]]>" = .ok ⟨⟨"a", [], none, none⟩, []⟩ := by
  have hscan : scan "x<a/>".toList = ⟨[.text "x".toList, .single "a".toList], none⟩ := by cbv
  have hout : EndsOutside "x<a/>".toList := by rw [EndsOutside, hscan]
  have hsettled : EndsSettled "x<a/>".toList := by
    intro raw hraw
    rw [hscan] at hraw
    cases hraw
  have hclosed : openAt "x<a/>".toList = 0 := by
    rw [openAt, hscan]
    rfl
  have hplain : read ("x<a/>" ++ "") = .ok ⟨⟨"a", [], none, none⟩, []⟩ := by cbv
  obtain ⟨htext, hsection⟩ := @read_stray _ "" hout hsettled hclosed ⟨⟨"a", [], none, none⟩, []⟩
  have hreference : "x<a/>&lt;" = "x<a/>" ++ "&lt;" ++ "" := by decide
  have hdata : "x<a/><![CDATA[y]]>" = "x<a/>" ++ "<![CDATA[" ++ "y" ++ "]]>" ++ "" := by decide
  refine ⟨hout, hsettled, hclosed, ?_, ?_⟩
  · rw [hreference]
    exact (htext "&lt;" (by simp) ⟨['<'], by cbv⟩).2 hplain
  · rw [hdata]
    exact (hsection "y" (by decide)).2 hplain

/-- Characters outside of the root are accepted even if they are not blank. -/
theorem read_keeps_no_stray :
    ¬ ∀ (document : String) (element : Element), read document = .ok element →
      ∀ c ∈ (scan (withoutMark document.toList)).stray, isSpace c = true := by
  intro h
  have hread : read "x<a/>y" = .ok ⟨⟨"a", [], none, none⟩, []⟩ := by cbv
  have hstray : (scan (withoutMark "x<a/>y".toList)).stray = ['x', 'y'] := by cbv
  have hblank := h _ _ hread 'x' (by rw [hstray]; simp)
  exact absurd hblank (by decide)

end Workbench.Xml
