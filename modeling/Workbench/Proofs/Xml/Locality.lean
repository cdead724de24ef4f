/-
Reading does not look ahead.

A piece of markup is made of the characters up to its closing bracket and of nothing behind it.  So
cutting it off a text and cutting it off those characters alone come to the same (`ReadsLocally`),
and a text of which the bracket is missing has no piece to be cut off.

For a whole text this means that what is read of a first part is read of it wherever it stands
(`scan_append`).  Only texts are different, because a text goes on up to the next bracket: the last
text of the first part and the first text of the rest are one piece.  Tags and faults do not depend
on that.
-/
import Workbench.Proofs.Xml.Nesting

namespace Workbench.Xml

/-! ### The end of a piece

The three ways to find a closing bracket read character by character, keep something in mind, and
stop at the first character that suits it.
-/

section Cutting

variable {σ : Type} (stops : σ → Char → Bool) (next : σ → Char → σ)

/-- The characters before the first one that `stops` suits, and those behind it; `next` is what is
kept in mind. -/
def cutWhere (state : σ) : List Char → Option (List Char × List Char)
  | [] => none
  | c :: cs =>
      if stops state c then some ([], cs)
      else (cutWhere (next state c) cs).map fun cut => (c :: cut.1, cut.2)

theorem cutWhere_append {before rest : List Char} (more : List Char) :
    ∀ {cs : List Char} {state : σ}, cutWhere stops next state cs = some (before, rest) →
      cutWhere stops next state (cs ++ more) = some (before, rest ++ more) := by
  intro cs
  induction cs generalizing before with
  | nil =>
      intro state h
      cases h
  | cons c cs ih =>
      intro state h
      rw [cutWhere] at h
      rw [List.cons_append, cutWhere]
      by_cases hstop : stops state c = true
      · rw [if_pos hstop] at h
        cases h
        rw [if_pos hstop]
      · rw [if_neg hstop] at h
        obtain ⟨cut, hcut, heq⟩ := Option.map_eq_some_iff.1 h
        cases heq
        rw [if_neg hstop, ih hcut]
        rfl

theorem cutWhere_used {before rest : List Char} :
    ∀ {cs : List Char} {state : σ}, cutWhere stops next state cs = some (before, rest) →
      ∃ used, cs = used ++ rest ∧ cutWhere stops next state used = some (before, []) := by
  intro cs
  induction cs generalizing before with
  | nil =>
      intro state h
      cases h
  | cons c cs ih =>
      intro state h
      rw [cutWhere] at h
      by_cases hstop : stops state c = true
      · rw [if_pos hstop] at h
        cases h
        refine ⟨[c], rfl, ?_⟩
        rw [cutWhere, if_pos hstop]
      · rw [if_neg hstop] at h
        obtain ⟨cut, hcut, heq⟩ := Option.map_eq_some_iff.1 h
        cases heq
        obtain ⟨used, hused, hown⟩ := ih hcut
        refine ⟨c :: used, by rw [hused, List.cons_append], ?_⟩
        rw [cutWhere, if_neg hstop, hown]
        rfl

end Cutting

/-- What is cut off is made of characters of its own, whatever stands behind them. -/
def CutsLocally (cut : List Char → Option (List Char × List Char)) : Prop :=
  ∀ cs before rest, cut cs = some (before, rest) ↔
    ∃ used, cs = used ++ rest ∧ cut used = some (before, [])

theorem cutsLocally_cutWhere {σ : Type} (stops : σ → Char → Bool) (next : σ → Char → σ)
    (state : σ) : CutsLocally (cutWhere stops next state) := by
  intro cs before rest
  constructor
  · exact cutWhere_used stops next
  · rintro ⟨used, rfl, hused⟩
    exact cutWhere_append stops next rest hused

theorem cutTag_eq_cutWhere (quote : Option Char) (cs : List Char) :
    cutTag quote cs = cutWhere (fun quote c => quote = none ∧ c = '>') quoteAfter quote cs := by
  induction cs generalizing quote with
  | nil => rfl
  | cons c cs ih =>
      rw [cutTag, cutWhere, ih]
      simp only [decide_eq_true_eq]

theorem cutBalanced_eq_cutWhere (depth : Nat) (cs : List Char) :
    cutBalanced depth cs = cutWhere (fun depth c => c = '>' ∧ depth = 0)
      (fun depth c => if c = '<' then depth + 1 else if c = '>' then depth - 1 else depth)
      depth cs := by
  induction cs generalizing depth with
  | nil => rfl
  | cons c cs ih =>
      simp only [cutBalanced, cutWhere, ih, decide_eq_true_eq]

/-- What is kept in mind here are all characters so far, so they come back with the cut. -/
theorem cutAfter_eq_cutWhere (closes : List Char → Bool) (before cs : List Char) :
    cutAfter closes before cs =
      (cutWhere (fun before c => c = '>' ∧ closes before = true) (fun before c => c :: before)
        before cs).map fun cut => (before.reverse ++ cut.1, cut.2) := by
  induction cs generalizing before with
  | nil => rfl
  | cons c cs ih =>
      rw [cutAfter, cutWhere, ih]
      simp only [decide_eq_true_eq]
      split
      · simp
      · rw [Option.map_map]
        simp [Function.comp_def]

theorem cutsLocally_cutTag (quote : Option Char) : CutsLocally (cutTag quote) := by
  rw [funext (cutTag_eq_cutWhere quote)]
  exact cutsLocally_cutWhere _ _ quote

theorem cutsLocally_cutBalanced (depth : Nat) : CutsLocally (cutBalanced depth) := by
  rw [funext (cutBalanced_eq_cutWhere depth)]
  exact cutsLocally_cutWhere _ _ depth

theorem cutsLocally_cutAfter (closes : List Char → Bool) : CutsLocally (cutAfter closes []) := by
  have hsame : cutAfter closes [] = cutWhere (fun before c => c = '>' ∧ closes before = true)
      (fun before c => c :: before) [] := by
    funext cs
    rw [cutAfter_eq_cutWhere]
    simp
  rw [hsame]
  exact cutsLocally_cutWhere _ _ []

/-! ### Pieces -/

/-- A piece is made of characters of its own, whatever stands behind them. -/
def ReadsLocally (read : List Char → Except MarkupFault (Markup × List Char)) : Prop :=
  ∀ cs piece rest, read cs = .ok (piece, rest) ↔
    ∃ used, cs = used ++ rest ∧ read used = .ok (piece, [])

/-- A reader that cuts first and then looks at nothing but what has been cut off. -/
theorem readsLocally_of_cut {cut : List Char → Option (List Char × List Char)}
    (hcut : CutsLocally cut) {read : List Char → Except MarkupFault (Markup × List Char)}
    (builds : List Char → Markup → Prop)
    (hread : ∀ cs piece rest, read cs = .ok (piece, rest) ↔
      ∃ before, cut cs = some (before, rest) ∧ builds before piece) : ReadsLocally read := by
  intro cs piece rest
  constructor
  · intro h
    obtain ⟨before, hbefore, hbuilds⟩ := (hread cs piece rest).1 h
    obtain ⟨used, hused, hown⟩ := (hcut cs before rest).1 hbefore
    exact ⟨used, hused, (hread used piece []).2 ⟨before, hown, hbuilds⟩⟩
  · rintro ⟨used, hused, h⟩
    obtain ⟨before, hown, hbuilds⟩ := (hread used piece []).1 h
    exact (hread cs piece rest).2 ⟨before, (hcut cs before rest).2 ⟨used, hused, hown⟩, hbuilds⟩

theorem readsLocally_readComment : ReadsLocally readComment := by
  refine readsLocally_of_cut (cutsLocally_cutAfter closesComment)
    (fun before piece => ∃ content, before = '!' :: '-' :: '-' :: content ∧
      piece = .comment content.dropLast.dropLast) fun cs piece rest => ?_
  constructor
  · intro h
    unfold readComment at h
    split at h
    · rename_i content more hcut
      cases h
      exact ⟨_, hcut, content, rfl, rfl⟩
    · cases h
  · rintro ⟨before, hcut, content, rfl, rfl⟩
    simp only [readComment, hcut]

theorem readsLocally_readData : ReadsLocally readData := by
  refine readsLocally_of_cut (cutsLocally_cutAfter closesData)
    (fun before piece => ∃ content,
      before = '!' :: '[' :: 'C' :: 'D' :: 'A' :: 'T' :: 'A' :: '[' :: content ∧
        piece = .data (Utf8.encode (String.ofList content.dropLast.dropLast)))
    fun cs piece rest => ?_
  constructor
  · intro h
    unfold readData at h
    split at h
    · rename_i content more hcut
      cases h
      exact ⟨_, hcut, content, rfl, rfl⟩
    · cases h
  · rintro ⟨before, hcut, content, rfl, rfl⟩
    simp only [readData, hcut]

theorem readsLocally_readDoctype : ReadsLocally readDoctype := by
  refine readsLocally_of_cut (cutsLocally_cutBalanced 0)
    (fun before piece => (before.take 8).map Char.toLower = doctypeKeyword ∧
      ¬ (before.drop 8).all isSpace = true ∧
        piece = .doctype ((before.drop 8).dropWhile isSpace)) fun cs piece rest => ?_
  constructor
  · intro h
    unfold readDoctype at h
    split at h
    · rename_i before more hcut
      split at h
      · rename_i hkeyword
        split at h
        · cases h
        · rename_i hname
          cases h
          exact ⟨before, hcut, hkeyword, hname, rfl⟩
      · cases h
    · cases h
  · rintro ⟨before, hcut, hkeyword, hname, rfl⟩
    simp only [readDoctype, hcut]
    rw [if_pos hkeyword, if_neg hname]

theorem readsLocally_readInstruction : ReadsLocally readInstruction := by
  refine readsLocally_of_cut (cutsLocally_cutAfter closesInstruction)
    (fun before piece => ∃ a c content, before = a :: c :: content ∧
      piece = .instruction (c :: content).dropLast) fun cs piece rest => ?_
  constructor
  · intro h
    unfold readInstruction at h
    split at h
    · rename_i a c content more hcut
      cases h
      exact ⟨_, hcut, a, c, content, rfl, rfl⟩
    · cases h
  · rintro ⟨before, hcut, a, c, content, rfl, rfl⟩
    simp only [readInstruction, hcut]

theorem readsLocally_readClosing : ReadsLocally readClosing := by
  refine readsLocally_of_cut (cutsLocally_cutTag none)
    (fun before piece => piece = .closing (closingName (before.drop 1)))
    fun cs piece rest => ?_
  constructor
  · intro h
    unfold readClosing at h
    split at h
    · rename_i before more hcut
      cases h
      exact ⟨before, hcut, rfl⟩
    · cases h
  · rintro ⟨before, hcut, rfl⟩
    simp only [readClosing, hcut]

theorem readsLocally_readOpening : ReadsLocally readOpening := by
  refine readsLocally_of_cut (cutsLocally_cutTag none)
    (fun before piece =>
      piece = if before.getLast? = some '/' then .single before.dropLast else .opening before)
    fun cs piece rest => ?_
  constructor
  · intro h
    unfold readOpening at h
    split at h
    · rename_i before more hcut
      by_cases hslash : before.getLast? = some '/'
      · rw [if_pos hslash] at h
        cases h
        exact ⟨before, hcut, (if_pos hslash).symm⟩
      · rw [if_neg hslash] at h
        cases h
        exact ⟨before, hcut, (if_neg hslash).symm⟩
    · cases h
  · rintro ⟨before, hcut, rfl⟩
    simp only [readOpening, hcut]
    split <;> rfl

/-- A piece has a first character, if nothing can be read of no characters. -/
theorem used_of_head {read : List Char → Except MarkupFault (Markup × List Char)}
    (hread : ReadsLocally read) (hnil : ∀ piece, read [] ≠ .ok (piece, [])) {c : Char}
    {cs rest : List Char} {piece : Markup} (h : read (c :: cs) = .ok (piece, rest)) :
    ∃ used, cs = used ++ rest ∧ read (c :: used) = .ok (piece, []) := by
  obtain ⟨used, hcs, hused⟩ := (hread _ _ _).1 h
  cases used with
  | nil => exact absurd hused (hnil piece)
  | cons d used =>
      obtain ⟨rfl, hrest⟩ := List.cons.inj hcs
      exact ⟨used, hrest, hused⟩

/-- Behind an exclamation mark one more character tells pieces apart, and it belongs to the piece. -/
theorem used_of_mark {read : List Char → Except MarkupFault (Markup × List Char)}
    (hread : ReadsLocally read) (hnil : ∀ piece, read [] ≠ .ok (piece, []))
    (hmark : ∀ piece, read ['!'] ≠ .ok (piece, [])) {c : Char}
    {cs rest : List Char} {piece : Markup} (h : read ('!' :: c :: cs) = .ok (piece, rest)) :
    ∃ used, cs = used ++ rest ∧ read ('!' :: c :: used) = .ok (piece, []) := by
  obtain ⟨used, hcs, hused⟩ := used_of_head hread hnil h
  cases used with
  | nil => exact absurd hused (hmark piece)
  | cons d used =>
      obtain ⟨rfl, hrest⟩ := List.cons.inj hcs
      exact ⟨used, hrest, hused⟩

/-- **A piece of markup is made of characters of its own**: none behind it decides of what kind it
is, where it ends, or whether it is one. -/
theorem readsLocally_readMarkup : ReadsLocally readMarkup := by
  intro cs piece rest
  constructor
  · intro h
    unfold readMarkup at h
    split at h
    · cases h
    · obtain ⟨used, rfl, hused⟩ := used_of_mark readsLocally_readComment nofun nofun h
      exact ⟨'!' :: '-' :: used, rfl, hused⟩
    · obtain ⟨used, rfl, hused⟩ := used_of_mark readsLocally_readData nofun nofun h
      exact ⟨'!' :: '[' :: used, rfl, hused⟩
    · obtain ⟨used, rfl, hused⟩ := used_of_mark readsLocally_readDoctype nofun nofun h
      exact ⟨'!' :: 'D' :: used, rfl, hused⟩
    · obtain ⟨used, rfl, hused⟩ := used_of_mark readsLocally_readDoctype nofun nofun h
      exact ⟨'!' :: 'd' :: used, rfl, hused⟩
    · cases h
    · obtain ⟨used, rfl, hused⟩ := used_of_head readsLocally_readInstruction nofun h
      exact ⟨'?' :: used, rfl, hused⟩
    · obtain ⟨used, rfl, hused⟩ := used_of_head readsLocally_readClosing nofun h
      exact ⟨'/' :: used, rfl, hused⟩
    · rename_i hnil _ _ _ _ hmark hask hslash
      cases cs with
      | nil => exact absurd rfl hnil
      | cons c cs =>
          obtain ⟨used, rfl, hused⟩ := used_of_head readsLocally_readOpening nofun h
          refine ⟨c :: used, rfl, ?_⟩
          rw [readMarkup_of_ne used (fun hc => hmark _ (by rw [hc]))
            (fun hc => hask _ (by rw [hc])) fun hc => hslash _ (by rw [hc])]
          exact hused
  · rintro ⟨used, rfl, h⟩
    unfold readMarkup at h
    split at h
    · cases h
    · exact (readsLocally_readComment _ _ _).2 ⟨_, rfl, h⟩
    · exact (readsLocally_readData _ _ _).2 ⟨_, rfl, h⟩
    · exact (readsLocally_readDoctype _ _ _).2 ⟨_, rfl, h⟩
    · exact (readsLocally_readDoctype _ _ _).2 ⟨_, rfl, h⟩
    · cases h
    · exact (readsLocally_readInstruction _ _ _).2 ⟨_, rfl, h⟩
    · exact (readsLocally_readClosing _ _ _).2 ⟨_, rfl, h⟩
    · rename_i hnil _ _ _ _ hmark hask hslash
      cases used with
      | nil => exact absurd rfl hnil
      | cons c used =>
          rw [List.cons_append, readMarkup_of_ne _ (fun hc => hmark _ (by rw [hc]))
            (fun hc => hask _ (by rw [hc])) fun hc => hslash _ (by rw [hc]), ← List.cons_append]
          exact (readsLocally_readOpening _ _ _).2 ⟨_, rfl, h⟩

theorem readMarkup_append {cs rest : List Char} {piece : Markup}
    (h : readMarkup cs = .ok (piece, rest)) (more : List Char) :
    readMarkup (cs ++ more) = .ok (piece, rest ++ more) := by
  obtain ⟨used, rfl, hused⟩ := (readsLocally_readMarkup _ _ _).1 h
  exact (readsLocally_readMarkup _ _ _).2 ⟨used, List.append_assoc _ _ _, hused⟩

/-! ### Texts in two parts -/

theorem scan_used {used : List Char} {piece : Markup} (h : readMarkup used = .ok (piece, []))
    (cs : List Char) : scan ('<' :: (used ++ cs)) = (scan cs).after piece :=
  scan_markup ((readsLocally_readMarkup _ _ _).2 ⟨used, rfl, h⟩)

theorem tags_after (piece : Markup) (scan : Scan) :
    (scan.after piece).tags = piece.tag?.toList ++ scan.tags :=
  Progress.filterMap_tag_cons piece scan.pieces

theorem ne_open_of_mem_takeWhile {cs : List Char} : ∀ c ∈ cs.takeWhile inText, c ≠ '<' := by
  intro c hc
  have hin : inText c = true := List.mem_takeWhile_imp hc
  exact bne_iff_ne.1 hin

theorem endsText_dropWhile (cs : List Char) : EndsText (cs.dropWhile inText) := by
  cases hrest : cs.dropWhile inText with
  | nil => exact Or.inl rfl
  | cons c more =>
      have hc : ¬ inText c = true := by
        have hhead := List.head?_dropWhile_not inText cs
        rw [hrest] at hhead
        simpa using hhead
      refine Or.inr ⟨more, ?_⟩
      rw [show c = '<' by simpa [inText] using hc]

theorem exists_text (cs : List Char) :
    ∃ text rest, cs = text ++ rest ∧ (∀ c ∈ text, c ≠ '<') ∧ EndsText rest :=
  ⟨cs.takeWhile inText, cs.dropWhile inText, List.takeWhile_append_dropWhile.symm,
    ne_open_of_mem_takeWhile, endsText_dropWhile cs⟩

/-- Text in front of a text adds no tag and no fault. -/
theorem scan_text_append {text : List Char} (h : ∀ c ∈ text, c ≠ '<') (cs : List Char) :
    (scan (text ++ cs)).tags = (scan cs).tags ∧ (scan (text ++ cs)).fault = (scan cs).fault := by
  have hends : ∀ {text rest : List Char}, (∀ c ∈ text, c ≠ '<') → EndsText rest →
      (scan (text ++ rest)).tags = (scan rest).tags ∧
        (scan (text ++ rest)).fault = (scan rest).fault := by
    intro text rest htext hrest
    by_cases hne : text = []
    · rw [hne]
      exact ⟨rfl, rfl⟩
    · rw [scan_text hne htext hrest, tags_after]
      exact ⟨rfl, rfl⟩
  -- What `cs` begins with joins the text, up to a bracket where both stand for themselves.
  obtain ⟨more, rest, rfl, hmore, hrest⟩ := exists_text cs
  have hboth : ∀ c ∈ text ++ more, c ≠ '<' := by
    intro c hc
    rcases List.mem_append.1 hc with hc | hc
    · exact h c hc
    · exact hmore c hc
  rw [← List.append_assoc, (hends hboth hrest).1, (hends hboth hrest).2, (hends hmore hrest).1,
    (hends hmore hrest).2]
  exact ⟨rfl, rfl⟩

/-- **What is read of a text is read of it wherever it stands**: behind a text that can be cut into
pieces to its end come the tags and the fault of what follows. -/
theorem scan_append {cs : List Char} (h : (scan cs).fault = none) (more : List Char) :
    (scan (cs ++ more)).tags = (scan cs).tags ++ (scan more).tags ∧
      (scan (cs ++ more)).fault = (scan more).fault := by
  induction cs using scan.induct with
  | case1 =>
      rw [show scan [] = ⟨[], none⟩ by rw [scan]]
      exact ⟨rfl, rfl⟩
  | case2 rest fault hfault =>
      rw [scan, if_pos rfl] at h
      split at h
      · cases h
      · rename_i hread
        rw [hfault] at hread
        cases hread
  | case3 rest piece behind hread ih =>
      obtain ⟨used, rfl, hused⟩ := (readsLocally_readMarkup _ _ _).1 hread
      rw [scan_used hused] at h
      rw [List.cons_append, List.append_assoc, scan_used hused, scan_used hused, tags_after,
        tags_after, (ih h).1, List.append_assoc]
      exact ⟨rfl, (ih h).2⟩
  | case4 c rest hc ih =>
      have htext : ∀ d ∈ c :: rest.takeWhile inText, d ≠ '<' :=
        List.forall_mem_cons.2 ⟨hc, ne_open_of_mem_takeWhile⟩
      have hparts : c :: rest = (c :: rest.takeWhile inText) ++ rest.dropWhile inText := by
        rw [List.cons_append, List.takeWhile_append_dropWhile]
      rw [hparts, (scan_text_append htext _).2] at h
      rw [hparts, List.append_assoc, (scan_text_append htext _).1, (scan_text_append htext _).1,
        (scan_text_append htext _).2]
      exact ih h

end Workbench.Xml
