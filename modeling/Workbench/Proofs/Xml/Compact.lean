/-
The compact form is read back as the element that was written.

Nothing is lost between writing and reading but the difference between empty data and none, and
the tail of the root, which no document can hold.  The attributes come back in their order.  All of
the work is in `Proofs/Xml/Pieces.lean`; what is left is that the document begins with a bracket,
so that no mark is taken off it, and that nothing is open when it ends.
-/
import Workbench.Proofs.Xml.Pieces

namespace Workbench.Xml

/-! ### Around the root -/

/-- A piece that is dropped where no element is open. -/
def Idle (piece : Markup) : Prop :=
  ∀ progress : Progress, progress.elements = [] → progress.step piece = .ok progress

theorem idle_text (content : List Char) : Idle (.text (escape content)) := by
  intro progress h
  rw [Progress.step_text_escape, Progress.addText, h]

theorem idle_instruction (content : List Char) : Idle (.instruction content) :=
  fun _ _ => rfl

theorem run_idle {progress : Progress} (h : progress.elements = []) {pieces : List Markup}
    (hidle : ∀ piece ∈ pieces, Idle piece) (more : List Markup) :
    progress.run (pieces ++ more) = progress.run more := by
  induction pieces with
  | nil => rfl
  | cons piece pieces ih =>
      rw [List.cons_append, Progress.run_cons_of_ok _ (hidle piece (by simp) progress h)]
      exact ih fun other hother => hidle other (by simp [hother])

/-- What a written element is read back as. -/
def Element.reread (element : Element) : Element :=
  (element.mapData present).withoutTail

/-- A root outside of which everything is dropped is the root of its document. -/
theorem root_pieces {element : Element} (h : element.Clean) (before after : List Markup)
    (hbefore : ∀ piece ∈ before, Idle piece) (hafter : ∀ piece ∈ after, Idle piece) :
    (⟨before ++ (element.pieces ++ after), none⟩ : Scan).root = .ok element.reread := by
  have hend : Progress.run ⟨[], [], some element.reread⟩ after
      = .ok ⟨[], [], some element.reread⟩ := by
    have hdrop := run_idle (show Progress.elements ⟨[], [], some element.reread⟩ = [] from rfl)
      hafter []
    rw [List.append_nil] at hdrop
    exact hdrop
  have hrun : Progress.start.run (before ++ (element.pieces ++ after))
      = .ok ⟨[], [], some element.reread⟩ := by
    rw [run_idle rfl hbefore, Progress.run_pieces element h]
    exact hend
  unfold Scan.root
  simp only [hrun]
  rfl

/-! ### The document -/

theorem withoutMark_open (cs : List Char) : withoutMark ('<' :: cs) = '<' :: cs := by
  rw [withoutMark, if_neg (by decide)]

theorem withoutMark_compactText (element : Element) :
    withoutMark element.compactText = element.compactText := by
  have hends := endsText_compactText element []
  rw [List.append_nil] at hends
  rcases hends with hnil | ⟨cs, hcons⟩
  · rw [hnil]
    rfl
  · rw [hcons, withoutMark_open]

theorem parse_compact {element : Element} (h : element.Clean) :
    parse element.compact = .ok element.reread := by
  have hscan := scan_compactText element h []
  have hroot := root_pieces h [] [] (by simp) (by simp)
  rw [List.append_nil] at hscan
  unfold parse
  rw [Element.compact, String.toList_ofList, withoutMark_compactText, hscan, scan]
  exact hroot

/-- **The compact form of an element with clean names is read back as that element**, except that
empty data is absent and that the root has no tail. -/
theorem read_compact (element : Element) (h : element.Clean) :
    read element.compact = .ok (element.mapData present).withoutTail := by
  rw [read, parse_compact h]
  rfl

/-- Quotes and brackets in values and data, empty data, data behind children, and a tail of the
root. -/
def crowded : Element :=
  ⟨⟨"a", [("k", "\"&<]]>'"), ("z", "")], some "]]>&amp;\x00", some "gone"⟩,
    [⟨⟨"b-1", [], some "", some " tail\r\n"⟩, []⟩,
      ⟨⟨"é", [("k", "<")], none, some ""⟩, [⟨⟨"d", [], some "<x>", none⟩, []⟩]⟩]⟩

theorem read_compact_crowded :
    crowded.Clean ∧ read crowded.compact = .ok (crowded.mapData present).withoutTail :=
  have h : crowded.Clean := by decide
  ⟨h, read_compact crowded h⟩

end Workbench.Xml
