/-
Lines of a text or of a file.

A line ends at a line feed, and a carriage return directly before the line feed belongs to
the end of the line.  A text that ends in a line feed has no further line after it, so the
empty text has no line at all.
-/

namespace Workbench.Text

variable {α : Type} [DecidableEq α]

/-- Put `a` in front of the first line. -/
def extendFirst (a : α) : List (List α) → List (List α)
  | [] => [[a]]
  | line :: lines => (a :: line) :: lines

/-- The lines of `text`, where `feed` ends a line and one `ret` before it is dropped. -/
def linesBy (feed ret : α) : List α → List (List α)
  | [] => []
  | a :: text =>
      if a = feed then [] :: linesBy feed ret text
      else if a = ret ∧ text.head? = some feed then linesBy feed ret text
      else extendFirst a (linesBy feed ret text)

/-- The lines of a text. -/
def lines (text : List Char) : List (List Char) :=
  linesBy '\n' '\r' text

/-- The lines of a file, as bytes. -/
def byteLines (bytes : List UInt8) : List (List UInt8) :=
  linesBy 10 13 bytes

/-- `text` holds `part` as a connected stretch. -/
def holds (part : List α) : List α → Bool
  | [] => part.isEmpty
  | a :: text => part.isPrefixOf (a :: text) || holds part text

end Workbench.Text
