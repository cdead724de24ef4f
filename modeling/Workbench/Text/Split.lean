/-
Cutting a text at a separator, and putting the pieces together again.

A text with `n` separators has `n + 1` pieces, empty ones included, so nothing is lost and the
empty text has one empty piece.
-/
import Workbench.Text.Line

namespace Workbench.Text

variable {α : Type} [DecidableEq α]

/-- The pieces of `text` between the separators. -/
def split (separator : α) : List α → List (List α)
  | [] => [[]]
  | a :: text =>
      if a = separator then [] :: split separator text else extendFirst a (split separator text)

/-- The pieces with a separator between neighbours. -/
def joinWith (separator : α) : List (List α) → List α
  | [] => []
  | [piece] => piece
  | piece :: next :: rest => piece ++ separator :: joinWith separator (next :: rest)

theorem split_ne_nil (separator : α) (text : List α) : split separator text ≠ [] := by
  cases text with
  | nil => simp [split]
  | cons a text =>
      rw [split]
      split
      · simp
      · cases split separator text <;> simp [extendFirst]

end Workbench.Text
