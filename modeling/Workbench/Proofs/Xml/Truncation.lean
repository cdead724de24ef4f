/-
Documents that are cut short, and documents that go on.

The root of a document ends with the tag behind which all tags so far form one tree.  A shorter part
of the document is refused, wherever it is cut: in the middle of a piece nothing can be cut off any
more, because reading does not look ahead and the closing bracket is missing; between two pieces the
tags form no tree yet, because behind one tree nothing can follow that makes it one tree again.  The
same law refuses a document with another one behind it.

None of the many places where the reader can notice is looked at one by one.  A part that were
accepted would be cut into pieces to its end and its tags would be one tree (`Whole`), and that is
all the argument needs.
-/
import Mathlib
import Workbench.Proofs.Xml.Compact
import Workbench.Proofs.Xml.Locality

namespace Workbench.Xml

/-! ### Whole texts -/

/-- A text that is cut into pieces to its end, with tags that form one tree. -/
def Whole (cs : List Char) : Prop :=
  (scan (withoutMark cs)).fault = none ∧ Forest 1 (scan (withoutMark cs)).tags

theorem whole_of_read {document : String} {element : Element} (h : read document = .ok element) :
    Whole document.toList := by
  obtain ⟨hfault, last, hrun, hfinish⟩ := root_eq_ok.1 (mapError_eq_ok.1 h)
  obtain ⟨-, hfits⟩ := (Progress.run_fits _ Progress.inStep_start (encoded_of_mem_scan _)).1
    ⟨last, element, hrun, hfinish⟩
  exact ⟨hfault, Progress.fits_start.1 hfits⟩

theorem read_eq_error {document : String} (h : ¬ Whole document.toList) :
    ∃ message, read document = .error (.xml message) :=
  exists_message fun _ hread => h (whole_of_read hread)

theorem ne_nil_of_whole {cs : List Char} (h : Whole cs) : cs ≠ [] := by
  rintro rfl
  refine ne_nil_of_forest h.2 ?_
  rw [withoutMark, scan]
  rfl

theorem withoutMark_append {cs : List Char} (h : cs ≠ []) (more : List Char) :
    withoutMark (cs ++ more) = withoutMark cs ++ more := by
  cases cs with
  | nil => exact absurd rfl h
  | cons c cs =>
      rw [List.cons_append, withoutMark, withoutMark]
      split <;> rfl

/-- A mark in front of a tag is one that the text before the tag begins with. -/
theorem withoutMark_append_open (cs more : List Char) :
    withoutMark (cs ++ '<' :: more) = withoutMark cs ++ '<' :: more := by
  by_cases h : cs = []
  · rw [h, List.nil_append, withoutMark_open]
    rfl
  · exact withoutMark_append h _

/-- **Behind a whole text nothing that has tags makes a whole text.** -/
theorem tags_eq_nil_of_whole {cs more : List Char} (h : Whole cs) (hboth : Whole (cs ++ more)) :
    (scan more).tags = [] := by
  obtain ⟨hfault, htags⟩ := h
  have hforest := hboth.2
  rw [withoutMark_append (ne_nil_of_whole ⟨hfault, htags⟩), (scan_append hfault more).1] at hforest
  exact eq_nil_of_forest_append htags hforest

/-! ### Where the root ends -/

/-- A tag that ends the root: `before` is the text in front of it, and `tag` what it is made of
behind its opening bracket. -/
structure EndsRoot (before tag : List Char) : Prop where
  /-- The text before the tag is cut into pieces to its end. -/
  scanned : (scan (withoutMark before)).fault = none
  /-- With this tag the tags so far form one tree. -/
  completes : ∃ piece last, readMarkup tag = .ok (piece, []) ∧ piece.tag? = some last ∧
    Forest 1 ((scan (withoutMark before)).tags ++ [last])

/-- The root of a document ends behind its first `n` characters. -/
def RootEndsAt (document : List Char) (n : Nat) : Prop :=
  ∃ before tag rest, document = before ++ '<' :: tag ++ rest ∧
    n = (before ++ '<' :: tag).length ∧ EndsRoot before tag

theorem EndsRoot.whole {before tag : List Char} (h : EndsRoot before tag) :
    Whole (before ++ '<' :: tag) := by
  obtain ⟨hscanned, piece, last, hread, hlast, hforest⟩ := h
  unfold Whole
  rw [withoutMark_append_open, (scan_append hscanned _).1, (scan_append hscanned _).2,
    scan_markup hread, tags_after, hlast, scan]
  exact ⟨rfl, hforest⟩

theorem exists_piece {cs : List Char} (h : (scan ('<' :: cs)).fault = none) :
    ∃ piece rest, readMarkup cs = .ok (piece, rest) := by
  cases hread : readMarkup cs with
  | ok cut => exact ⟨cut.1, cut.2, rfl⟩
  | error fault =>
      rw [scan, if_pos rfl] at h
      split at h
      · cases h
      · rename_i hok
        rw [hread] at hok
        cases hok

/-- In the middle of a piece of markup there is nothing that could be cut off. -/
theorem fault_ne_none_of_cut {part missing : List Char} {piece : Markup}
    (h : readMarkup (part ++ missing) = .ok (piece, [])) (hmissing : missing ≠ []) :
    (scan ('<' :: part)).fault ≠ none := by
  intro hfault
  obtain ⟨other, rest, hother⟩ := exists_piece hfault
  have hlonger : readMarkup (part ++ missing) = .ok (other, rest ++ missing) :=
    readMarkup_append hother missing
  rw [h] at hlonger
  obtain ⟨-, hnil⟩ := Prod.mk.inj (Except.ok.inj hlonger)
  exact hmissing (List.append_eq_nil_iff.1 hnil.symm).2

/-- **What lacks any part of the root is not whole.** -/
theorem EndsRoot.not_whole {before tag cut missing : List Char} (h : EndsRoot before tag)
    (hcut : before ++ '<' :: tag = cut ++ missing) (hmissing : missing ≠ []) : ¬ Whole cut := by
  intro hwhole
  obtain ⟨hscanned, piece, last, hread, -, hforest⟩ := h
  rcases List.append_eq_append_iff.1 hcut with ⟨part, rfl, hpart⟩ | ⟨part, rfl, -⟩
  · cases part with
    | nil =>
        -- The tag that would make the tree is missing altogether.
        rw [List.append_nil] at hwhole
        cases eq_nil_of_forest_append hwhole.2 hforest
    | cons c part =>
        rw [List.cons_append] at hpart
        obtain ⟨rfl, rfl⟩ := List.cons.inj hpart
        have hfault := hwhole.1
        rw [withoutMark_append_open, (scan_append hscanned _).2] at hfault
        exact fault_ne_none_of_cut hread hmissing hfault
  · -- What the part holds is one tree already, and the tag is one too many.
    have hfault := hwhole.1
    rw [withoutMark_append (ne_nil_of_whole hwhole), (scan_append hfault part).1,
      List.append_assoc] at hforest
    have hnone := eq_nil_of_forest_append hwhole.2 hforest
    simp at hnone

theorem not_whole_of_length_lt {document cut rest : List Char} {n : Nat}
    (h : RootEndsAt document n) (hcut : document = cut ++ rest) (hlength : cut.length < n) :
    ¬ Whole cut := by
  obtain ⟨before, tag, behind, hdocument, hn, hends⟩ := h
  rw [hcut] at hdocument
  rw [hn] at hlength
  rcases List.append_eq_append_iff.1 hdocument with ⟨missing, hroot, -⟩ | ⟨more, hshort, -⟩
  · refine hends.not_whole hroot ?_
    rintro rfl
    rw [hroot, List.append_nil] at hlength
    exact Nat.lt_irrefl _ hlength
  · rw [hshort, List.length_append] at hlength
    omega

/-! ### The last tag -/

/-- A text of which the last tag is `last`: `before` is what stands in front of it, `tag` what it is
made of behind its opening bracket, and `rest` what stands behind it. -/
structure LastTag (cs before tag rest : List Char) (last : Tag) : Prop where
  parts : cs = before ++ '<' :: tag ++ rest
  scanned : (scan before).fault = none
  read : ∃ piece, readMarkup tag = .ok (piece, []) ∧ piece.tag? = some last
  tags : (scan cs).tags = (scan before).tags ++ [last]

variable {cs before tag rest : List Char} {last : Tag}

/-- A piece in front of a text adds its tag in front of the others. -/
theorem LastTag.behind_piece (h : LastTag cs before tag rest last) {used : List Char}
    {piece : Markup} (hused : readMarkup used = .ok (piece, [])) :
    LastTag ('<' :: (used ++ cs)) ('<' :: (used ++ before)) tag rest last where
  parts := by rw [h.parts]; simp
  scanned := by rw [scan_used hused]; exact h.scanned
  read := h.read
  tags := by rw [scan_used hused, scan_used hused, tags_after, tags_after, h.tags, List.append_assoc]

theorem LastTag.behind_text (h : LastTag cs before tag rest last) {text : List Char}
    (htext : ∀ c ∈ text, c ≠ '<') : LastTag (text ++ cs) (text ++ before) tag rest last where
  parts := by rw [h.parts]; simp
  scanned := by rw [(scan_text_append htext before).2]; exact h.scanned
  read := h.read
  tags := by rw [(scan_text_append htext cs).1, (scan_text_append htext before).1, h.tags]

/-- Where no tag follows, the first one is the last. -/
theorem lastTag_of_piece {used : List Char} {piece : Markup}
    (hused : readMarkup used = .ok (piece, [])) (hlast : piece.tag? = some last)
    (hmore : (scan cs).tags = []) : LastTag ('<' :: (used ++ cs)) [] used cs last where
  parts := rfl
  scanned := by rw [scan]
  read := ⟨piece, hused, hlast⟩
  tags := by
    rw [scan_used hused, tags_after, hmore, hlast, scan]
    rfl

theorem exists_lastTag {cs : List Char} (hfault : (scan cs).fault = none)
    (htags : (scan cs).tags ≠ []) : ∃ before tag rest last, LastTag cs before tag rest last := by
  induction cs using scan.induct with
  | case1 =>
      rw [scan] at htags
      exact absurd rfl htags
  | case2 rest fault hread =>
      obtain ⟨piece, more, hpiece⟩ := exists_piece hfault
      rw [hread] at hpiece
      cases hpiece
  | case3 rest piece behind hread ih =>
      obtain ⟨used, rfl, hused⟩ := (readsLocally_readMarkup _ _ _).1 hread
      rw [scan_used hused] at hfault htags
      rw [tags_after] at htags
      by_cases hmore : (scan behind).tags = []
      · rw [hmore, List.append_nil] at htags
        obtain ⟨last, hlast⟩ := Option.ne_none_iff_exists'.1
          (fun hnone => htags (by rw [hnone]; rfl) : piece.tag? ≠ none)
        exact ⟨_, _, _, last, lastTag_of_piece hused hlast hmore⟩
      · obtain ⟨before, tag, rest, last, hlast⟩ := ih hfault hmore
        exact ⟨_, _, _, last, hlast.behind_piece hused⟩
  | case4 c rest hc ih =>
      have htext : ∀ d ∈ c :: rest.takeWhile inText, d ≠ '<' :=
        List.forall_mem_cons.2 ⟨hc, ne_open_of_mem_takeWhile⟩
      have hparts : c :: rest = (c :: rest.takeWhile inText) ++ rest.dropWhile inText := by
        rw [List.cons_append, List.takeWhile_append_dropWhile]
      rw [hparts] at hfault htags ⊢
      rw [(scan_text_append htext _).2] at hfault
      rw [(scan_text_append htext _).1] at htags
      obtain ⟨before, tag, more, last, hlast⟩ := ih hfault htags
      exact ⟨_, _, _, last, hlast.behind_text htext⟩

/-! ### Every root ends -/

/-- A mark is no bracket, and it is one in front of every part of the text behind it. -/
theorem exists_mark (cs : List Char) :
    ∃ mark, cs = mark ++ withoutMark cs ∧ (∀ c ∈ mark, c ≠ '<') ∧
      ∀ before rest, withoutMark cs = before ++ rest → withoutMark (mark ++ before) = before := by
  cases cs with
  | nil =>
      refine ⟨[], rfl, nofun, fun before rest h => ?_⟩
      obtain ⟨rfl, -⟩ := List.append_eq_nil_iff.1 h.symm
      rfl
  | cons c cs =>
      by_cases hc : c = Char.ofNat 0xFEFF
      · refine ⟨[c], ?_, ?_, fun before rest h => ?_⟩
        · rw [withoutMark, if_pos hc]
          rfl
        · rw [hc]
          exact List.forall_mem_singleton.2 (by decide)
        · rw [List.singleton_append, withoutMark, if_pos hc]
      · rw [withoutMark, if_neg hc]
        refine ⟨[], rfl, nofun, fun before rest h => ?_⟩
        cases before with
        | nil => rfl
        | cons d before =>
            rw [List.cons_append] at h
            obtain ⟨rfl, -⟩ := List.cons.inj h
            rw [List.nil_append, withoutMark, if_neg hc]

theorem tags_ne_nil_of_whole {cs : List Char} (h : Whole cs) : (scan cs).tags ≠ [] := by
  obtain ⟨mark, hcs, hopen, -⟩ := exists_mark cs
  rw [hcs, (scan_text_append hopen _).1]
  exact ne_nil_of_forest h.2

theorem exists_rootEndsAt {document : List Char} (h : Whole document) :
    ∃ n, RootEndsAt document n := by
  obtain ⟨hfault, htags⟩ := h
  obtain ⟨before, tag, rest, last, hlast⟩ := exists_lastTag hfault (ne_nil_of_forest htags)
  obtain ⟨piece, hread, hpiece⟩ := hlast.read
  obtain ⟨mark, hdocument, -, hmark⟩ := exists_mark document
  have hkept : withoutMark (mark ++ before) = before :=
    hmark before ('<' :: tag ++ rest) (by rw [hlast.parts, List.append_assoc])
  refine ⟨_, mark ++ before, tag, rest, ?_, rfl, ⟨?_, piece, last, hread, hpiece, ?_⟩⟩
  · rw [hdocument, hlast.parts]
    simp only [List.append_assoc]
  · rw [hkept]
    exact hlast.scanned
  · rw [hkept, ← hlast.tags]
    exact htags

theorem rootEndsAt_unique {document : List Char} {n m : Nat} (hn : RootEndsAt document n)
    (hm : RootEndsAt document m) : n ≤ m := by
  obtain ⟨before, tag, rest, hdocument, rfl, hends⟩ := hm
  by_contra hlt
  exact not_whole_of_length_lt hn hdocument (Nat.lt_of_not_le hlt) hends.whole

/-! ### Documents -/

/-- **A document is complete exactly once.**  Its root ends at one place; every part of the document
that ends before that is refused, and so is the document with another one behind it. -/
theorem read_complete {document : String} {element : Element}
    (h : read document = .ok element) :
    (∃! n, RootEndsAt document.toList n) ∧
      (∀ n, RootEndsAt document.toList n → ∀ cut rest, document = cut ++ rest →
        cut.length < n → ∃ message, read cut = .error (.xml message)) ∧
      ∀ other root, read other = .ok root →
        ∃ message, read (document ++ other) = .error (.xml message) := by
  have hwhole := whole_of_read h
  refine ⟨?_, ?_, ?_⟩
  · obtain ⟨n, hn⟩ := exists_rootEndsAt hwhole
    exact ⟨n, hn, fun m hm => Nat.le_antisymm (rootEndsAt_unique hm hn) (rootEndsAt_unique hn hm)⟩
  · intro n hn cut rest hcut hlength
    have hparts : document.toList = cut.toList ++ rest.toList := by
      rw [hcut, String.toList_append]
    exact read_eq_error (not_whole_of_length_lt hn hparts hlength)
  · intro other root hother
    refine read_eq_error fun hboth => ?_
    rw [String.toList_append] at hboth
    exact tags_ne_nil_of_whole (whole_of_read hother) (tags_eq_nil_of_whole hwhole hboth)

/-- A document that holds its closing tag in a value, in a comment and in a character data section. -/
def enclosed : String :=
  "<a q='</a>'><!--</a>-->t<b/><![CDATA[</a>]]></a >\n"

def enclosedRoot : Element :=
  ⟨⟨"a", [("q", "</a>")], some "t", none⟩, [⟨⟨"b", [], none, some "</a>"⟩, []⟩]⟩

theorem read_complete_enclosed :
    read enclosed = .ok enclosedRoot ∧ RootEndsAt enclosed.toList 49 ∧
      (∃ message, read "<a q='</a>'><!--</a>-->t<b/><![CDATA[</a>" = .error (.xml message)) ∧
      ∃ message, read (enclosed ++ "<b/>") = .error (.xml message) := by
  have h : read enclosed = .ok enclosedRoot := by cbv
  have hother : read "<b/>" = .ok ⟨⟨"b", [], none, none⟩, []⟩ := by cbv
  have hend : RootEndsAt enclosed.toList 49 := by
    have hscan : scan (withoutMark "<a q='</a>'><!--</a>-->t<b/><![CDATA[</a>]]>".toList)
        = ⟨[.opening "a q='</a>'".toList, .comment "</a>".toList, .text "t".toList,
            .single "b".toList, .data (Utf8.encode "</a>")], none⟩ := by cbv
    refine ⟨"<a q='</a>'><!--</a>-->t<b/><![CDATA[</a>]]>".toList, "/a >".toList, ['\n'], ?_, ?_,
      ?_, .closing ['a'], .closing "a", ?_, rfl, ?_⟩
    · cbv
    · cbv
    · rw [hscan]
    · cbv
    · rw [hscan]
      exact Forest.element "a" (Forest.single "b" Forest.nil) Forest.nil
  obtain ⟨-, hcut, hmore⟩ := read_complete h
  refine ⟨h, hend, ?_, hmore _ _ hother⟩
  exact hcut 49 hend _ "]]></a >\n" (by decide) (by decide)

end Workbench.Xml
