/-
All lines of a text.

The lines of a text are found from its end to its beginning.  Read from the beginning they are cut
off one by one: what stands before a line feed is a line, without a carriage return that it ends in,
and what stands behind the last line feed is a line if it is anything.  So a text that ends in a
line feed leaves nothing over that a text behind it could go on with, and the lines of the two are
the lines of the one and then those of the other.
-/
import Workbench.Text.Line

namespace Workbench.Text

variable {α : Type} [DecidableEq α] {feed ret : α} {line text front behind rest : List α}
  {lines more : List (List α)}

/-- A line without the carriage return that it ends in, if it does. -/
def withoutReturn (ret : α) (line : List α) : List α :=
  if line.getLast? = some ret then line.dropLast else line

/-- `lines` are the lines of a text, cut off from its beginning. -/
inductive AreLines (feed ret : α) : List α → List (List α) → Prop
  | nil : AreLines feed ret [] []
  | last {line : List α} (hne : line ≠ []) (hline : feed ∉ line) : AreLines feed ret line [line]
  | cons {line rest : List α} {lines : List (List α)} (hline : feed ∉ line)
      (hrest : AreLines feed ret rest lines) :
      AreLines feed ret (line ++ feed :: rest) (withoutReturn ret line :: lines)

/-! ### One line -/

theorem withoutReturn_cons {a : α} (h : ¬ (a = ret ∧ line = [])) :
    withoutReturn ret (a :: line) = a :: withoutReturn ret line := by
  cases line with
  | nil =>
      have ha : a ≠ ret := fun ha => h ⟨ha, rfl⟩
      simp [withoutReturn, ha]
  | cons b line =>
      rw [withoutReturn, withoutReturn, List.getLast?_cons_cons]
      split <;> rfl

/-- What stands before the first line feed is the first line. -/
theorem linesBy_append_feed (hline : feed ∉ line) (rest : List α) :
    linesBy feed ret (line ++ feed :: rest) = withoutReturn ret line :: linesBy feed ret rest := by
  induction line with
  | nil => simp [linesBy, withoutReturn]
  | cons a line ih =>
      rw [List.mem_cons, not_or] at hline
      obtain ⟨ha, hline⟩ := hline
      rw [List.cons_append, linesBy, if_neg (Ne.symm ha)]
      by_cases hreturn : a = ret ∧ line = []
      · obtain ⟨rfl, rfl⟩ := hreturn
        simp [linesBy, withoutReturn]
      · have hhead : ¬ (a = ret ∧ (line ++ feed :: rest).head? = some feed) := by
          rintro ⟨hret, hfeed⟩
          cases line with
          | nil => exact hreturn ⟨hret, rfl⟩
          | cons b line =>
              obtain rfl : b = feed := by simpa using hfeed
              exact hline List.mem_cons_self
        rw [if_neg hhead, ih hline, withoutReturn_cons hreturn]
        rfl

/-- What no line feed follows is a line as it is. -/
theorem linesBy_of_not_mem (hne : line ≠ []) (hline : feed ∉ line) :
    linesBy feed ret line = [line] := by
  induction line with
  | nil => exact absurd rfl hne
  | cons a line ih =>
      rw [List.mem_cons, not_or] at hline
      obtain ⟨ha, hline⟩ := hline
      have hhead : ¬ (a = ret ∧ line.head? = some feed) := fun h =>
        hline (List.mem_of_head? h.2)
      rw [linesBy, if_neg (Ne.symm ha), if_neg hhead]
      by_cases hempty : line = []
      · rw [hempty]
        rfl
      · rw [ih hempty hline]
        rfl

/-! ### All lines -/

theorem areLines_linesBy (feed ret : α) (text : List α) :
    AreLines feed ret text (linesBy feed ret text) := by
  induction hlength : text.length using Nat.strongRecOn generalizing text with
  | _ length ih =>
      by_cases hmem : feed ∈ text
      · obtain ⟨line, rest, rfl, hline⟩ := List.eq_append_cons_of_mem hmem
        rw [linesBy_append_feed hline]
        refine .cons hline (ih rest.length ?_ rest rfl)
        rw [List.length_append, List.length_cons] at hlength
        omega
      · by_cases hne : text = []
        · rw [hne]
          exact .nil
        · rw [linesBy_of_not_mem hne hmem]
          exact .last hne hmem

/-- **The lines that are found are the lines of the text.** -/
theorem areLines_iff : AreLines feed ret text lines ↔ lines = linesBy feed ret text := by
  constructor
  · intro h
    induction h with
    | nil => rfl
    | last hne hline => exact (linesBy_of_not_mem hne hline).symm
    | cons hline hrest ih => rw [linesBy_append_feed hline, ih]
  · rintro rfl
    exact areLines_linesBy feed ret text

/-- No line goes on behind a text that is empty or ends in a line feed. -/
theorem AreLines.append (hfront : AreLines feed ret front lines)
    (hend : front = [] ∨ front.getLast? = some feed) (hbehind : AreLines feed ret behind more) :
    AreLines feed ret (front ++ behind) (lines ++ more) := by
  induction hfront with
  | nil => exact hbehind
  | last hne hline => exact absurd (List.mem_of_getLast? (hend.resolve_left hne)) hline
  | @cons line rest lines hline hrest ih =>
      have hrestEnd : rest = [] ∨ rest.getLast? = some feed := by
        have hlast : (line ++ feed :: rest).getLast? = some feed := hend.resolve_left (by simp)
        cases rest with
        | nil => exact Or.inl rfl
        | cons a rest => exact Or.inr (by simpa [List.getLast?_append] using hlast)
      rw [List.append_assoc, List.cons_append, List.cons_append]
      exact .cons hline (ih hrestEnd)

theorem linesBy_append (hend : front = [] ∨ front.getLast? = some feed) (behind : List α) :
    linesBy feed ret (front ++ behind) = linesBy feed ret front ++ linesBy feed ret behind :=
  (areLines_iff.1
    ((areLines_linesBy feed ret front).append hend (areLines_linesBy feed ret behind))).symm

end Workbench.Text
