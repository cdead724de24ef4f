/-
What one piece does to a document that has been read in part.

The reader keeps the names of the open tags, against which closing tags are checked, apart from the
elements under construction.  The two stacks always agree (`Progress.InStep`), which is why no
element is ever to be closed where none is open.

A piece has two sides.  What it spells may be unreadable (`Markup.Legible`), which is a fault
whatever has been read before.  A piece that can be read acts only through its tag
(`step_of_legible`), and whether that goes well depends on the two stacks and the root alone
(`attach_cases`, `close_cases`).
-/
import Workbench.Proofs.Result
import Workbench.Proofs.Utf8
import Workbench.Proofs.Xml.Forest
import Workbench.Proofs.Xml.Pieces

namespace Workbench.Xml

/-! ### What one piece needs -/

/-- The text or the attributes of a piece can be read. -/
def Markup.Legible : Markup → Prop
  | .text raw => ∃ content, unescape raw = .ok content
  | .opening content => ∃ result, readTag content = .ok result
  | .single content => ∃ result, readTag content = .ok result
  | _ => True

/-- A character data section holds the bytes of a text. -/
def Markup.Encoded : Markup → Prop
  | .data bytes => ∃ text, bytes = Utf8.encode text
  | _ => True

/-- What holds of all texts and of whatever is read as markup holds of all pieces of a text. -/
theorem forall_mem_scan {P : Markup → Prop} (htext : ∀ raw, P (.text raw))
    (hmarkup : ∀ {cs rest piece}, readMarkup cs = .ok (piece, rest) → P piece)
    (cs : List Char) : ∀ piece ∈ (scan cs).pieces, P piece := by
  induction cs using scan.induct with
  | case1 =>
      intro piece hpiece
      rw [scan] at hpiece
      cases hpiece
  | case2 rest fault hfault =>
      intro piece hpiece
      rw [scan, if_pos rfl] at hpiece
      split at hpiece
      · cases hpiece
      · rename_i hread
        rw [hfault] at hread
        cases hread
  | case3 rest first more hread ih =>
      intro piece hpiece
      rw [scan_markup hread] at hpiece
      rcases List.mem_cons.1 hpiece with rfl | hpiece
      · exact hmarkup hread
      · exact ih piece hpiece
  | case4 c rest hc ih =>
      intro piece hpiece
      rw [scan, if_neg hc] at hpiece
      rcases List.mem_cons.1 hpiece with rfl | hpiece
      · exact htext _
      · exact ih piece hpiece

theorem encoded_of_readDoctype {cs rest : List Char} {piece : Markup}
    (h : readDoctype cs = .ok (piece, rest)) : piece.Encoded := by
  unfold readDoctype at h
  split at h
  · split at h
    · split at h <;> cases h
      trivial
    · cases h
  · cases h

/-- Every other kind of piece has nothing to be decoded. -/
theorem encoded_of_readMarkup {cs rest : List Char} {piece : Markup}
    (h : readMarkup cs = .ok (piece, rest)) : piece.Encoded := by
  unfold readMarkup at h
  split at h
  · cases h
  · unfold readComment at h
    split at h <;> cases h
    trivial
  · unfold readData at h
    split at h <;> cases h
    exact ⟨_, rfl⟩
  · exact encoded_of_readDoctype h
  · exact encoded_of_readDoctype h
  · cases h
  · unfold readInstruction at h
    split at h <;> cases h
    trivial
  · unfold readClosing at h
    split at h <;> cases h
    trivial
  · unfold readOpening at h
    split at h
    · split at h <;> cases h <;> trivial
    · cases h

/-- **Every character data section of a document holds the bytes of a text.** -/
theorem encoded_of_mem_scan (cs : List Char) : ∀ piece ∈ (scan cs).pieces, piece.Encoded :=
  forall_mem_scan (fun _ => trivial) encoded_of_readMarkup cs

/-! ### Faults -/

/-- A fault that a document can have. -/
def Fault.OfDocument : Fault → Prop
  | .encoding _ => False
  | .nothingOpen => False
  | _ => True

/-- The failure to read a document with such a fault is one of the document. -/
theorem failure_of_document {fault : Fault} (h : fault.OfDocument) :
    fault ≠ .nothingOpen ∧ fault.failure = .xml fault.message := by
  cases fault with
  | encoding _ => exact h.elim
  | nothingOpen => exact h.elim
  | _ => exact ⟨by simp, rfl⟩

theorem ofDocument_of_attributesFrom {total : Nat} {seen : List (List Char × Nat)}
    {cursor : Cursor} {fault : Fault} (h : attributesFrom total seen cursor = .error fault) :
    fault.OfDocument := by
  fun_induction attributesFrom total seen cursor with
  | case1 _ _ _ => cases h
  | case2 _ _ _ _ _ _ _ =>
      cases h
      trivial
  | case3 _ _ _ _ _ _ _ _ _ =>
      cases h
      trivial
  | case4 _ _ _ _ _ _ _ _ _ ih =>
      rcases bind_eq_error.1 h with hmore | ⟨_, -, hpure⟩
      · exact ih hmore
      · cases hpure

theorem ofDocument_of_readTag {content : List Char} {fault : Fault}
    (h : readTag content = .error fault) : fault.OfDocument := by
  rcases bind_eq_error.1 h with hattributes | ⟨attributes, -, hpure⟩
  · exact ofDocument_of_attributesFrom hattributes
  · cases hpure

theorem tagName_of_readTag {content : List Char} {name : String}
    {attributes : List (String × String)} (h : readTag content = .ok (name, attributes)) :
    name = tagName content := by
  obtain ⟨_, -, hpure⟩ := bind_eq_ok.1 h
  cases hpure
  rfl

/-! ### One piece -/

namespace Progress

/-- A piece that can be read does to what has been read only what its tag says. -/
theorem step_of_legible (progress : Progress) {piece : Markup} (h : piece.Legible)
    (hencoded : piece.Encoded) :
    (piece.tag? = none ∧ (progress.step piece = .ok progress ∨
        ∃ content, progress.step piece = .ok (progress.addText content))) ∨
      (∃ name attributes, piece.tag? = some (.opening name) ∧
        progress.step piece = .ok (progress.enter name attributes)) ∨
      (∃ name attributes, piece.tag? = some (.single name) ∧
        progress.step piece = progress.attach (Element.leaf (Fields.plain name attributes))) ∨
      ∃ name, piece.tag? = some (.closing name) ∧ progress.step piece = progress.close name := by
  cases piece with
  | text raw =>
      obtain ⟨content, hcontent⟩ := h
      refine Or.inl ⟨rfl, Or.inr ⟨content, ?_⟩⟩
      rw [step, hcontent]
      rfl
  | data bytes =>
      obtain ⟨text, rfl⟩ := hencoded
      refine Or.inl ⟨rfl, Or.inr ⟨text.toList, ?_⟩⟩
      rw [step, Utf8.decode_encode]
      rfl
  | opening content =>
      obtain ⟨⟨name, attributes⟩, hread⟩ := h
      refine Or.inr (Or.inl ⟨name, attributes, ?_, ?_⟩)
      · rw [tagName_of_readTag hread]
        rfl
      · rw [step, hread]
        rfl
  | single content =>
      obtain ⟨⟨name, attributes⟩, hread⟩ := h
      refine Or.inr (Or.inr (Or.inl ⟨name, attributes, ?_, ?_⟩))
      · rw [tagName_of_readTag hread]
        rfl
      · rw [step, hread]
        rfl
  | closing name => exact Or.inr (Or.inr (Or.inr ⟨String.ofList name, rfl, rfl⟩))
  | comment _ | instruction _ | doctype _ => exact Or.inl ⟨rfl, Or.inl rfl⟩

/-- A piece that cannot be read is a fault of the document. -/
theorem step_of_not_legible (progress : Progress) {piece : Markup} (h : ¬ piece.Legible) :
    ∃ fault, progress.step piece = .error fault ∧ fault.OfDocument := by
  cases piece with
  | text raw =>
      cases hread : unescape raw with
      | ok content => exact absurd ⟨content, hread⟩ h
      | error fault =>
          refine ⟨.reference fault, ?_, trivial⟩
          rw [step, hread]
          rfl
  | opening content =>
      cases hread : readTag content with
      | ok result => exact absurd ⟨result, hread⟩ h
      | error fault =>
          refine ⟨fault, ?_, ofDocument_of_readTag hread⟩
          rw [step, hread]
          rfl
  | single content =>
      cases hread : readTag content with
      | ok result => exact absurd ⟨result, hread⟩ h
      | error fault =>
          refine ⟨fault, ?_, ofDocument_of_readTag hread⟩
          rw [step, hread]
          rfl
  | data _ | closing _ | comment _ | instruction _ | doctype _ => exact absurd trivial h

/-! ### The two stacks -/

/-- The names that closing tags are checked against are the tags of the elements under
construction. -/
def InStep (progress : Progress) : Prop :=
  progress.names = progress.elements.map fun element => element.tag

theorem inStep_start : start.InStep := rfl

theorem tag_addText (element : Element) (more : List Char) :
    (element.addText more).tag = element.tag := by
  unfold Element.addText
  split <;> rfl

theorem names_addText (progress : Progress) (more : List Char) :
    (progress.addText more).names = progress.names := by
  unfold addText
  split <;> rfl

theorem root_addText (progress : Progress) (more : List Char) :
    (progress.addText more).root = progress.root := by
  unfold addText
  split <;> rfl

theorem inStep_addText {progress : Progress} (h : progress.InStep) (more : List Char) :
    (progress.addText more).InStep := by
  obtain ⟨names, elements, root⟩ := progress
  cases elements with
  | nil => exact h
  | cons element outer =>
      show names = (element.addText more).tag :: outer.map fun element => element.tag
      rw [tag_addText]
      exact h

theorem inStep_enter {progress : Progress} (h : progress.InStep) (tag : String)
    (attributes : Attributes) : (progress.enter tag attributes).InStep :=
  congrArg (tag :: ·) h

/-- What attaching an element comes to depends on whether another is open. -/
theorem attach_cases {progress : Progress} (h : progress.InStep) (element : Element) :
    (progress.names ≠ [] ∧ ∃ next, progress.attach element = .ok next ∧ next.InStep ∧
        next.names = progress.names ∧ next.root = progress.root) ∨
      (progress.names = [] ∧ progress.root = none ∧
        progress.attach element = .ok { progress with root := some element }) ∨
      (progress.names = [] ∧ progress.root ≠ none ∧
        progress.attach element = .error .secondRoot) := by
  obtain ⟨names, elements, root⟩ := progress
  cases elements with
  | cons parent outer =>
      refine Or.inl ⟨?_, ⟨names, parent.append element :: outer, root⟩, rfl, h, rfl, rfl⟩
      intro hnil
      cases h.symm.trans hnil
  | nil =>
      cases root with
      | none => exact Or.inr (Or.inl ⟨h, rfl, rfl⟩)
      | some _ => exact Or.inr (Or.inr ⟨h, by simp, rfl⟩)

/-- **A closing tag that names the innermost open element completes it, and no other is
accepted.**  There always is an element to complete. -/
theorem close_cases {progress : Progress} (h : progress.InStep) (name : String) :
    (∃ names element outer, progress.names = name :: names ∧
        (⟨names, outer, progress.root⟩ : Progress).InStep ∧
        progress.close name = attach ⟨names, outer, progress.root⟩ element) ∨
      ((∀ names, progress.names ≠ name :: names) ∧
        ∃ fault, progress.close name = .error fault ∧ fault.OfDocument) := by
  obtain ⟨names, elements, root⟩ := progress
  cases names with
  | nil => exact Or.inr ⟨by simp, .strayClose name, rfl, trivial⟩
  | cons expected names =>
      by_cases hname : expected = name
      -- A name is open, so by agreement of the stacks an element is.
      · cases elements with
        | nil => cases h
        | cons element outer =>
            refine Or.inl ⟨names, element, outer, by rw [hname], (List.cons.inj h).2, ?_⟩
            rw [close, closeName_eq_ok.2 (by rw [hname])]
            rfl
      · refine Or.inr ⟨?_, .mismatchedClose expected name, ?_, trivial⟩
        · intro names' hcons
          exact hname (List.cons.inj hcons).1
        · rw [close, closeName, if_neg hname]
          rfl

/-- A result that either keeps the stacks in step or is a fault of the document. -/
def Keeps : Except Fault Progress → Prop
  | .ok next => next.InStep
  | .error fault => fault.OfDocument

theorem attach_keeps {progress : Progress} (h : progress.InStep) (element : Element) :
    Keeps (progress.attach element) := by
  rcases attach_cases h element with ⟨-, _, heq, hnext, -⟩ | ⟨-, -, heq⟩ | ⟨-, -, heq⟩
  all_goals rw [heq]
  · exact hnext
  · exact h
  · trivial

theorem close_keeps {progress : Progress} (h : progress.InStep) (name : String) :
    Keeps (progress.close name) := by
  rcases close_cases h name with ⟨_, element, _, -, hclosed, heq⟩ | ⟨-, _, heq, hfault⟩
  all_goals rw [heq]
  · exact attach_keeps hclosed element
  · exact hfault

/-- **The two stacks agree after every piece, and no fault comes from their disagreement.** -/
theorem step_keeps {progress : Progress} (h : progress.InStep) {piece : Markup}
    (hencoded : piece.Encoded) : Keeps (progress.step piece) := by
  by_cases hlegible : piece.Legible
  · rcases progress.step_of_legible hlegible hencoded with
      ⟨-, heq | ⟨content, heq⟩⟩ | ⟨name, attributes, -, heq⟩ | ⟨name, attributes, -, heq⟩ |
        ⟨name, -, heq⟩
    all_goals rw [heq]
    · exact h
    · exact inStep_addText h content
    · exact inStep_enter h name attributes
    · exact attach_keeps h _
    · exact close_keeps h name
  · obtain ⟨fault, heq, hfault⟩ := progress.step_of_not_legible hlegible
    rw [heq]
    exact hfault

theorem inStep_step {progress next : Progress} (h : progress.InStep) {piece : Markup}
    (hencoded : piece.Encoded) (hnext : progress.step piece = .ok next) : next.InStep := by
  have hkept := step_keeps h hencoded
  rw [hnext] at hkept
  exact hkept

/-- The same holds after any number of pieces. -/
theorem run_keeps (pieces : List Markup) {progress : Progress} (h : progress.InStep)
    (hencoded : ∀ piece ∈ pieces, piece.Encoded) : Keeps (progress.run pieces) := by
  induction pieces generalizing progress with
  | nil => exact h
  | cons piece pieces ih =>
      have hfirst : piece.Encoded := hencoded piece (by simp)
      rw [run_cons]
      cases hnext : progress.step piece with
      | error fault =>
          have hkept := step_keeps h hfirst
          rw [hnext] at hkept
          exact hkept
      | ok next =>
          exact ih (inStep_step h hfirst hnext) fun other hother =>
            hencoded other (by simp [hother])

end Progress

end Workbench.Xml
