/-
The first line of a text.

The lines of a text are found from its end to its beginning, so the first of them is known last.
Read from the beginning it is what stands before the first line feed, without a carriage return
directly before that, or the whole text if there is no line feed in it.
-/
import Workbench.Text.Line

namespace Workbench.Text

variable {α : Type} {feed ret : α}

/-- `line` is the first line of a text. -/
inductive IsFirstLine (feed ret : α) : List α → List α → Prop
  | whole {text : List α} (hne : text ≠ []) (htext : feed ∉ text) :
      IsFirstLine feed ret text text
  | fed (line rest : List α) (hline : feed ∉ line) (hlast : line.getLast? ≠ some ret) :
      IsFirstLine feed ret (line ++ feed :: rest) line
  | returned (line rest : List α) (hline : feed ∉ line) :
      IsFirstLine feed ret (line ++ ret :: feed :: rest) line

/-- The first line becomes longer by a character in front, if that ends no line. -/
theorem IsFirstLine.cons {a : α} {text line : List α} (h : IsFirstLine feed ret text line)
    (hfeed : a ≠ feed) (hreturn : ¬ (a = ret ∧ text.head? = some feed)) :
    IsFirstLine feed ret (a :: text) (a :: line) := by
  cases h with
  | whole hne htext => exact .whole (by simp) (by simp [htext, Ne.symm hfeed])
  | returned line rest hline =>
      exact .returned (a :: line) rest (by simp [hline, Ne.symm hfeed])
  | fed line rest hline hlast =>
      refine .fed (a :: line) rest (by simp [hline, Ne.symm hfeed]) ?_
      cases line with
      | nil =>
          intro hret
          exact hreturn ⟨by simpa using hret, rfl⟩
      | cons b line => rwa [List.getLast?_cons_cons]

variable [DecidableEq α]

theorem linesBy_eq_nil {text : List α} : linesBy feed ret text = [] ↔ text = [] := by
  induction text with
  | nil => simp [linesBy]
  | cons a text ih =>
      rw [linesBy]
      split
      · simp
      · split
        · rename_i h
          have hne : text ≠ [] := by
            rintro rfl
            simp at h
          simpa using fun hnil => hne (ih.1 hnil)
        · cases linesBy feed ret text <;> simp [extendFirst]

/-- **The first line, read from the beginning.** -/
theorem isFirstLine_of_head? {text line : List α}
    (h : (linesBy feed ret text).head? = some line) : IsFirstLine feed ret text line := by
  induction text generalizing line with
  | nil => cases h
  | cons a text ih =>
      rw [linesBy] at h
      by_cases hfeed : a = feed
      · rw [if_pos hfeed] at h
        obtain rfl : [] = line := by simpa using h
        rw [hfeed]
        exact .fed [] text (by simp) (by simp)
      · rw [if_neg hfeed] at h
        by_cases hreturn : a = ret ∧ text.head? = some feed
        · rw [if_pos hreturn] at h
          obtain ⟨rfl, hhead⟩ := hreturn
          obtain ⟨rest, rfl⟩ := List.head?_eq_some_iff.1 hhead
          rw [linesBy, if_pos rfl] at h
          obtain rfl : [] = line := by simpa using h
          exact .returned [] rest (by simp)
        · rw [if_neg hreturn] at h
          cases hlines : linesBy feed ret text with
          | nil =>
              obtain rfl : text = [] := linesBy_eq_nil.1 hlines
              obtain rfl : [a] = line := by simpa [hlines, extendFirst] using h
              exact .whole (by simp) (by simpa using Ne.symm hfeed)
          | cons first lines =>
              obtain rfl : a :: first = line := by simpa [hlines, extendFirst] using h
              exact (ih (by rw [hlines, List.head?_cons])).cons hfeed hreturn

end Workbench.Text
