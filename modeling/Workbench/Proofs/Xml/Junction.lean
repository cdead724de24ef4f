/-
Documents in two parts.

What is read of a part is read of it wherever it stands, except for its last text: a text goes on up
to the next bracket, so the text that the rest begins with is one piece with it (`withText`).
`scan_withText` is the one equation about this, and everything else about parts follows from it.

For the reader it makes no difference into how many texts characters are cut, as long as no
reference is torn apart (`run_withText`): they are put one behind the other in the same place.  What
a document is accepted as does not depend on a mark at its beginning either, so the parts of a
document can be looked at without it (`read_eq_ok`).
-/
import Mathlib
import Workbench.Proofs.Xml.Order
import Workbench.Proofs.Xml.Truncation
import Workbench.Proofs.Xml.Unescape

namespace Workbench.Xml

/-! ### Text behind pieces -/

/-- A piece that is text; all others are markup. -/
def Markup.isText : Markup → Bool
  | .text _ => true
  | _ => false

theorem isText_of_readMarkup {cs rest : List Char} {piece : Markup}
    (h : readMarkup cs = .ok (piece, rest)) : piece.isText = false := by
  unfold readMarkup readComment readData readDoctype readInstruction readClosing readOpening at h
  repeat' split at h
  all_goals cases h
  all_goals rfl

/-- The piece that a text is, if it is not empty. -/
def textPieces (text : List Char) : List Markup :=
  if text = [] then [] else [.text text]

/-- Pieces with a text behind them; a text that they end in goes on with it. -/
def withText (text : List Char) : List Markup → List Markup
  | [] => textPieces text
  | [.text raw] => [.text (raw ++ text)]
  | piece :: pieces => piece :: withText text pieces

theorem withText_cons {piece : Markup} {pieces : List Markup}
    (h : pieces ≠ [] ∨ piece.isText = false) (text : List Char) :
    withText text (piece :: pieces) = piece :: withText text pieces := by
  cases pieces with
  | cons other pieces => cases piece <;> rfl
  | nil =>
      rcases h with h | h
      · exact absurd rfl h
      · cases piece with
        | text raw => cases h
        | _ => rfl

theorem withText_nil (pieces : List Markup) : withText [] pieces = pieces := by
  induction pieces with
  | nil => rfl
  | cons piece pieces ih =>
      cases pieces with
      | nil => cases piece <;> simp [withText, textPieces]
      | cons other pieces => rw [withText_cons (Or.inl (by simp)), ih]

/-- Behind markup a text is a piece of its own. -/
theorem withText_of_getLast {pieces : List Markup}
    (h : ∀ raw, pieces.getLast? ≠ some (.text raw)) (text : List Char) :
    withText text pieces = pieces ++ textPieces text := by
  induction pieces with
  | nil => rfl
  | cons piece pieces ih =>
      cases pieces with
      | nil =>
          cases piece with
          | text raw => exact absurd rfl (h raw)
          | _ => rfl
      | cons other pieces =>
          rw [withText_cons (Or.inl (by simp)), List.cons_append, ih]
          intro raw hraw
          exact h raw (by rw [List.getLast?_cons_cons, hraw])

theorem scan_textPieces {text rest : List Char} (htext : ∀ c ∈ text, c ≠ '<')
    (hrest : EndsText rest) : scan (text ++ rest) = (scan rest).afterAll (textPieces text) := by
  unfold textPieces
  by_cases hne : text = []
  · rw [if_pos hne, hne]
    rfl
  · rw [if_neg hne, scan_text hne htext hrest]
    rfl

theorem pieces_ne_nil {cs : List Char} (h : (scan ('<' :: cs)).fault = none) :
    (scan ('<' :: cs)).pieces ≠ [] := by
  obtain ⟨piece, rest, hread⟩ := exists_piece h
  rw [scan_markup hread]
  simp [Scan.after]

/-- **Behind a part that is cut to its end a text joins what the part ends in, and the rest is cut
on its own.** -/
theorem scan_withText {before text rest : List Char} (h : (scan before).fault = none)
    (htext : ∀ c ∈ text, c ≠ '<') (hrest : EndsText rest) :
    scan (before ++ (text ++ rest)) = (scan rest).afterAll (withText text (scan before).pieces) := by
  induction before using scan.induct with
  | case1 =>
      rw [List.nil_append, scan_textPieces htext hrest, show (scan []).pieces = [] by rw [scan]]
      rfl
  | case2 cs fault hfault =>
      obtain ⟨piece, more, hread⟩ := exists_piece h
      rw [hfault] at hread
      cases hread
  | case3 cs piece behind hread ih =>
      have hmarkup : piece.isText = false := isText_of_readMarkup hread
      obtain ⟨used, rfl, hused⟩ := (readsLocally_readMarkup _ _ _).1 hread
      rw [scan_used hused] at h
      rw [List.cons_append, List.append_assoc, scan_used hused, scan_used hused, ih h]
      show _ = (scan rest).afterAll (withText text (piece :: (scan behind).pieces))
      rw [withText_cons (Or.inr hmarkup), Scan.afterAll_cons]
  | case4 c cs hc ih =>
      have hopen : ∀ d ∈ c :: cs.takeWhile inText, d ≠ '<' :=
        List.forall_mem_cons.2 ⟨hc, ne_open_of_mem_takeWhile⟩
      have hparts : c :: cs = (c :: cs.takeWhile inText) ++ cs.dropWhile inText := by
        rw [List.cons_append, List.takeWhile_append_dropWhile]
      have hends : EndsText (cs.dropWhile inText) := endsText_dropWhile cs
      have hne : c :: cs.takeWhile inText ≠ [] := by simp
      rw [hparts, scan_text hne hopen hends] at h ⊢
      rcases hends with hnil | ⟨more, hmore⟩
      · -- The part is one text, so what follows goes on with it.
        have hboth : ∀ d ∈ (c :: cs.takeWhile inText) ++ text, d ≠ '<' := by
          intro d hd
          rcases List.mem_append.1 hd with hd | hd
          · exact hopen d hd
          · exact htext d hd
        rw [hnil, List.append_nil, ← List.append_assoc, scan_text (by simp) hboth hrest, scan]
        rfl
      · rw [hmore] at h ih ⊢
        have hbracket : EndsText ('<' :: more ++ (text ++ rest)) := Or.inr ⟨_, rfl⟩
        rw [List.append_assoc, scan_text hne hopen hbracket, ih h]
        show _ = (scan rest).afterAll (withText text (.text _ :: (scan ('<' :: more)).pieces))
        rw [withText_cons (Or.inl (pieces_ne_nil h)), Scan.afterAll_cons]

/-! ### Reading texts in parts -/

theorem extend_extend (data : Option String) (first second : List Char) :
    extend (extend data first) second = extend data (first ++ second) := by
  simp only [extend, Option.getD_some, String.ofList_append, String.append_assoc]

theorem Element.addText_addText (element : Element) (first second : List Char) :
    (element.addText first).addText second = element.addText (first ++ second) := by
  obtain ⟨fields, children⟩ := element
  rcases List.eq_nil_or_concat children with rfl | ⟨init, last, rfl⟩
  · simp [Element.addText, extend_extend]
  · simp [Element.addText, Progress.mapLast_append, extend_extend]

namespace Progress

/-- Characters go into the innermost open element, and no characters leave no trace. -/
def put (progress : Progress) (content : List Char) : Progress :=
  if content = [] then progress else progress.addText content

theorem put_nil (progress : Progress) : progress.put [] = progress := rfl

theorem put_of_ne (progress : Progress) {content : List Char} (h : content ≠ []) :
    progress.put content = progress.addText content :=
  if_neg h

/-- Outside of all elements characters are dropped. -/
theorem put_of_closed {progress : Progress} (h : progress.elements = []) (content : List Char) :
    progress.put content = progress := by
  unfold put addText
  rw [h]
  exact ite_self progress

theorem addText_addText (progress : Progress) (first second : List Char) :
    (progress.addText first).addText second = progress.addText (first ++ second) := by
  obtain ⟨names, elements, root⟩ := progress
  cases elements with
  | nil => rfl
  | cons element outer =>
      show (⟨names, (element.addText first).addText second :: outer, root⟩ : Progress) = _
      rw [element.addText_addText]
      rfl

theorem put_put (progress : Progress) (first second : List Char) :
    (progress.put first).put second = progress.put (first ++ second) := by
  by_cases hfirst : first = []
  · rw [hfirst, put_nil, List.nil_append]
  by_cases hsecond : second = []
  · rw [hsecond, put_nil, List.append_nil]
  rw [put_of_ne _ hfirst, put_of_ne _ hsecond, put_of_ne _ (by simp [hfirst]), addText_addText]

theorem addText_put (progress : Progress) (first second : List Char) :
    (progress.addText first).put second = progress.addText (first ++ second) := by
  by_cases hsecond : second = []
  · rw [hsecond, put_nil, List.append_nil]
  · rw [put_of_ne _ hsecond, addText_addText]

theorem run_append (progress : Progress) (pieces more : List Markup) :
    progress.run (pieces ++ more) = (progress.run pieces).bind fun next => next.run more := by
  induction pieces generalizing progress with
  | nil => rfl
  | cons piece pieces ih =>
      rw [List.cons_append, run_cons, run_cons]
      cases progress.step piece with
      | error fault => rfl
      | ok next => exact ih next

theorem run_singleton (progress : Progress) (piece : Markup) :
    progress.run [piece] = progress.step piece := by
  rw [run_cons]
  cases progress.step piece <;> rfl

theorem step_text_eq_ok {progress next : Progress} {raw : List Char} :
    progress.step (.text raw) = .ok next ↔
      ∃ content, StandsFor raw content ∧ next = progress.addText content := by
  rw [step, bind_eq_ok]
  simp only [mapError_eq_ok, unescape_eq_ok, pure, Except.pure, Except.ok.injEq]
  constructor
  · rintro ⟨content, hcontent, rfl⟩
    exact ⟨content, hcontent, rfl⟩
  · rintro ⟨content, hcontent, rfl⟩
    exact ⟨content, hcontent, rfl⟩

theorem run_textPieces {progress last : Progress} {text : List Char} :
    progress.run (textPieces text) = .ok last ↔
      ∃ content, StandsFor text content ∧ last = progress.put content := by
  by_cases htext : text = []
  · subst htext
    show Except.ok progress = .ok last ↔ _
    constructor
    · intro h
      cases h
      exact ⟨[], StandsFor.nil, rfl⟩
    · rintro ⟨content, hcontent, rfl⟩
      rw [hcontent.unique StandsFor.nil, put_nil]
  · have hput : ∀ {content}, StandsFor text content → progress.put content
        = progress.addText content := by
      intro content hcontent
      refine put_of_ne _ ?_
      rintro rfl
      cases hcontent
      exact htext rfl
    rw [textPieces, if_neg htext, run_singleton, step_text_eq_ok]
    constructor
    · rintro ⟨content, hcontent, rfl⟩
      exact ⟨content, hcontent, (hput hcontent).symm⟩
    · rintro ⟨content, hcontent, rfl⟩
      exact ⟨content, hcontent, hput hcontent⟩

/-- A text that pieces end in has no reference under way at its end. -/
def SettledLast (pieces : List Markup) : Prop :=
  ∀ raw, pieces.getLast? = some (.text raw) → Settled raw

/-- **Texts are read in parts.**  A text behind pieces that have no reference under way puts its
characters behind all else, whether or not the pieces end in a text. -/
theorem run_withText {text : List Char} {pieces : List Markup} (h : SettledLast pieces)
    {progress last : Progress} :
    progress.run (withText text pieces) = .ok last ↔
      ∃ next content, progress.run pieces = .ok next ∧ StandsFor text content ∧
        last = next.put content := by
  induction pieces generalizing progress with
  | nil =>
      rw [show withText text [] = textPieces text from rfl, run_textPieces]
      simp [run_nil]
  | cons piece pieces ih =>
      by_cases hlast : pieces ≠ [] ∨ piece.isText = false
      · have hmore : SettledLast pieces := by
          intro raw hraw
          refine h raw ?_
          cases pieces with
          | nil => cases hraw
          | cons other pieces => rw [List.getLast?_cons_cons, hraw]
        rw [withText_cons hlast, run_cons, run_cons]
        cases progress.step piece with
        | error fault => simp [Except.bind]
        | ok next => exact ih hmore
      · -- The text goes on with the one that the pieces end in.
        obtain ⟨hnil, htext⟩ : pieces = [] ∧ piece.isText = true := by simpa using hlast
        subst hnil
        cases piece with
        | text raw =>
            rw [run_singleton, show withText text [.text raw] = [.text (raw ++ text)] from rfl,
              run_singleton, step_text_eq_ok]
            constructor
            · rintro ⟨all, hall, rfl⟩
              obtain ⟨first, content, rfl, hfirst, hcontent⟩ := (standsFor_append (h raw rfl)).1 hall
              exact ⟨progress.addText first, content, step_text_eq_ok.2 ⟨first, hfirst, rfl⟩,
                hcontent, (addText_put _ _ _).symm⟩
            · rintro ⟨next, content, hnext, hcontent, rfl⟩
              obtain ⟨first, hfirst, rfl⟩ := step_text_eq_ok.1 hnext
              exact ⟨first ++ content, hfirst.append hcontent, addText_put _ _ _⟩
        | _ => cases htext

theorem settledLast_of_run {pieces : List Markup} {progress next : Progress}
    (h : progress.run pieces = .ok next) : SettledLast pieces := by
  induction pieces generalizing progress with
  | nil =>
      intro raw hraw
      cases hraw
  | cons piece pieces ih =>
      intro raw hraw
      obtain ⟨later, hlater, hrest⟩ := bind_eq_ok.1 h
      cases pieces with
      | nil =>
          obtain rfl := Option.some.inj hraw
          obtain ⟨content, hcontent, -⟩ := step_text_eq_ok.1 hlater
          exact hcontent.settled
      | cons other pieces =>
          rw [List.getLast?_cons_cons] at hraw
          exact ih hrest raw hraw

/-- As many elements are open as the tags say. -/
theorem length_run {pieces : List Markup} {progress next : Progress} (hbare : progress.Bare)
    (h : progress.run pieces = .ok next) :
    next.elements.length = pieces.foldl Markup.depthAfter progress.elements.length := by
  induction pieces generalizing progress with
  | nil =>
      cases h
      rfl
  | cons piece pieces ih =>
      obtain ⟨later, hlater, hrest⟩ := bind_eq_ok.1 h
      have htells := step_tells hbare hlater
      rw [ih htells.bare hrest, htells.depth, List.foldl_cons]

end Progress

/-! ### What follows a part -/

/-- From what has been read already the pieces of a scan lead to a root. -/
def Scan.LeadsTo (scan : Scan) (progress : Progress) (element : Element) : Prop :=
  scan.fault = none ∧ ∃ last, progress.run scan.pieces = .ok last ∧ last.finish = .ok element

theorem leadsTo_afterAll {scan : Scan} {pieces : List Markup} {progress : Progress}
    {element : Element} :
    (scan.afterAll pieces).LeadsTo progress element ↔
      ∃ next, progress.run pieces = .ok next ∧ scan.LeadsTo next element := by
  unfold Scan.LeadsTo
  rw [show (scan.afterAll pieces).pieces = pieces ++ scan.pieces from rfl, Progress.run_append]
  constructor
  · rintro ⟨hfault, last, hlast, hfinish⟩
    obtain ⟨next, hnext, hrest⟩ := bind_eq_ok.1 hlast
    exact ⟨next, hnext, hfault, last, hrest, hfinish⟩
  · rintro ⟨next, hnext, hfault, last, hrest, hfinish⟩
    exact ⟨hfault, last, bind_eq_ok.2 ⟨next, hnext, hrest⟩, hfinish⟩

/-- **A text in front of what follows is as good as having its characters in place.** -/
theorem leadsTo_text {text content : List Char} (htext : ∀ c ∈ text, c ≠ '<')
    (hcontent : StandsFor text content) (after : List Char) {progress : Progress}
    {element : Element} :
    (scan (text ++ after)).LeadsTo progress element ↔
      (scan after).LeadsTo (progress.put content) element := by
  obtain ⟨more, rest, rfl, hmore, hrest⟩ := exists_text after
  have hboth : ∀ c ∈ text ++ more, c ≠ '<' := by
    intro c hc
    rcases List.mem_append.1 hc with hc | hc
    · exact htext c hc
    · exact hmore c hc
  rw [← List.append_assoc, scan_textPieces hboth hrest, scan_textPieces hmore hrest,
    leadsTo_afterAll, leadsTo_afterAll]
  simp only [Progress.run_textPieces]
  constructor
  · rintro ⟨next, ⟨all, hall, rfl⟩, hleads⟩
    obtain ⟨first, behind, rfl, hfirst, hbehind⟩ := (standsFor_append hcontent.settled).1 hall
    obtain rfl := hfirst.unique hcontent
    exact ⟨_, ⟨behind, hbehind, rfl⟩, by rwa [Progress.put_put]⟩
  · rintro ⟨next, ⟨behind, hbehind, rfl⟩, hleads⟩
    exact ⟨_, ⟨content ++ behind, hcontent.append hbehind, rfl⟩, by rwa [← Progress.put_put]⟩

/-! ### Whole documents -/

theorem root_iff_leadsTo {scan : Scan} {element : Element} :
    scan.root = .ok element ↔ scan.LeadsTo Progress.start element :=
  root_eq_ok

/-- **A mark at the beginning is as good as nothing.** -/
theorem leadsTo_withoutMark {cs : List Char} {element : Element} :
    (scan (withoutMark cs)).LeadsTo Progress.start element ↔
      (scan cs).LeadsTo Progress.start element := by
  cases cs with
  | nil => exact Iff.rfl
  | cons c cs =>
      rw [withoutMark]
      by_cases hc : c = Char.ofNat 0xFEFF
      · have hmark : StandsFor [c] [c] := StandsFor.char (by rw [hc]; decide) StandsFor.nil
        have hopen : ∀ d ∈ [c], d ≠ '<' := by
          rw [hc]
          exact List.forall_mem_singleton.2 (by decide)
        rw [if_pos hc, ← List.singleton_append, leadsTo_text hopen hmark,
          Progress.put_of_closed rfl]
      · rw [if_neg hc]

theorem read_eq_ok {document : String} {element : Element} :
    read document = .ok element ↔ (scan document.toList).LeadsTo Progress.start element := by
  rw [read, mapError_eq_ok, parse, root_iff_leadsTo, leadsTo_withoutMark]

/-! ### Where a document is cut -/

/-- A part of a document that ends outside of markup: between two pieces, or within a text. -/
def EndsOutside (before : List Char) : Prop :=
  (scan before).fault = none

/-- A part of a document with no reference under way at its end. -/
def EndsSettled (before : List Char) : Prop :=
  Progress.SettledLast (scan before).pieces

/-- The number of elements that are open at the end of a part. -/
def openAt (before : List Char) : Nat :=
  (scan before).pieces.foldl Markup.depthAfter 0

/-- A cut at the edge of a piece of markup: right in front of the bracket that opens one, or right
behind the bracket that closes one. -/
structure AtMarkup (before after : List Char) : Prop where
  outside : EndsOutside before
  edge : (∃ more, after = '<' :: more) ∨
    ∃ last, (scan before).pieces.getLast? = some last ∧ last.isText = false

/-- What is read of a part, and what that leads to with the rest. -/
def Joins (before after : List Char) (element : Element) : Prop :=
  ∃ next, Progress.start.run (scan before).pieces = .ok next ∧ (scan after).LeadsTo next element

theorem Joins.settled {before after : List Char} {element : Element}
    (h : Joins before after element) : EndsSettled before := by
  obtain ⟨next, hnext, -⟩ := h
  exact Progress.settledLast_of_run hnext

/-- **Where no reference is under way a document is read in parts.** -/
theorem leadsTo_append {before after : List Char} (h : EndsOutside before)
    (hsettled : EndsSettled before) {element : Element} :
    (scan (before ++ after)).LeadsTo Progress.start element ↔ Joins before after element := by
  obtain ⟨text, rest, rfl, htext, hrest⟩ := exists_text after
  unfold Joins
  rw [scan_withText h htext hrest, leadsTo_afterAll, scan_textPieces htext hrest]
  simp only [leadsTo_afterAll, Progress.run_withText hsettled, Progress.run_textPieces]
  constructor
  · rintro ⟨last, ⟨next, content, hnext, hcontent, rfl⟩, hleads⟩
    exact ⟨next, hnext, _, ⟨content, hcontent, rfl⟩, hleads⟩
  · rintro ⟨next, hnext, last, ⟨content, hcontent, rfl⟩, hleads⟩
    exact ⟨_, ⟨next, content, hnext, hcontent, rfl⟩, hleads⟩

/-- At the edge of markup a document is always read in parts. -/
theorem AtMarkup.leadsTo_append {before after : List Char} (h : AtMarkup before after)
    {element : Element} :
    (scan (before ++ after)).LeadsTo Progress.start element ↔ Joins before after element := by
  have hscan : scan (before ++ after) = (scan after).afterAll (scan before).pieces := by
    obtain ⟨text, rest, rfl, htext, hrest⟩ := exists_text after
    rw [scan_withText h.outside htext hrest, scan_textPieces htext hrest, ← Scan.afterAll_append]
    rcases h.edge with ⟨more, hmore⟩ | ⟨last, hlast, hmarkup⟩
    · cases text with
      | nil => rw [withText_nil, textPieces, if_pos rfl, List.append_nil]
      | cons c text => exact absurd (List.cons.inj hmore).1 (htext c (by simp))
    · rw [withText_of_getLast]
      intro raw hraw
      rw [hlast] at hraw
      cases hraw
      cases hmarkup
  rw [hscan, leadsTo_afterAll, Joins]

/-- **A piece of markup can be put in wherever a part ends outside of markup.** -/
theorem leadsTo_insert {before used : List Char} {piece : Markup} (h : EndsOutside before)
    (hused : readMarkup used = .ok (piece, [])) (after : List Char) {element : Element} :
    (scan (before ++ '<' :: (used ++ after))).LeadsTo Progress.start element ↔
      ∃ next later, Progress.start.run (scan before).pieces = .ok next ∧
        next.step piece = .ok later ∧ (scan after).LeadsTo later element := by
  have hat : AtMarkup before ('<' :: (used ++ after)) := ⟨h, Or.inl ⟨_, rfl⟩⟩
  have hone : (scan after).after piece = (scan after).afterAll [piece] := rfl
  rw [hat.leadsTo_append, Joins]
  simp only [scan_used hused, hone, leadsTo_afterAll, Progress.run_singleton]
  constructor
  · rintro ⟨next, hnext, later, hlater, hleads⟩
    exact ⟨next, later, hnext, hlater, hleads⟩
  · rintro ⟨next, later, hnext, hlater, hleads⟩
    exact ⟨next, hnext, later, hlater, hleads⟩

end Workbench.Xml
