/-
Files that are code.

The lines of a file are read in order, and each of them does one of three things, whatever follows
it: a line that is no text ends the reading with its fault, a line of code ends it with the answer,
and any other line leaves the answer to the lines behind.  So the first line that is no text or that
is code decides, and without one the file is no code.  A file that is empty or ends in a line feed
keeps its lines when another is put behind it, so it decides for both, or leaves it to the other.
-/
import Workbench.Proofs.Text.Lines
import Workbench.Proofs.Utf8.Exact
import Workbench.Text.Code

namespace Workbench.Text

open Utf8 (encode IsText)

variable {line : List UInt8} {lines front behind : List (List UInt8)} {text : String}

/-! ### One line -/

/-- What reading a line does. -/
inductive Reads (line : List UInt8) : Prop
  | fault (fault : Utf8.Fault) (hline : ¬ IsText line)
      (hread : ∀ lines, anyCodeLine (line :: lines) = .error fault)
  | code (text : String) (hline : line = encode text) (hcode : isCodeLine text.toList = true)
      (hread : ∀ lines, anyCodeLine (line :: lines) = .ok true)
  | plain (text : String) (hline : line = encode text) (hcode : isCodeLine text.toList = false)
      (hread : ∀ lines, anyCodeLine (line :: lines) = anyCodeLine lines)

theorem reads (line : List UInt8) : Reads line := by
  cases hdecode : Utf8.decode line with
  | error fault =>
      refine .fault fault ?_ fun lines => ?_
      · rintro ⟨text, htext⟩
        rw [Utf8.decode_eq_ok_iff.2 htext] at hdecode
        cases hdecode
      · rw [anyCodeLine, hdecode]
  | ok text =>
      have hline := Utf8.decode_eq_ok_iff.1 hdecode
      cases hcode : isCodeLine text.toList with
      | true =>
          refine .code text hline hcode fun lines => ?_
          rw [anyCodeLine, hdecode]
          exact if_pos hcode
      | false =>
          refine .plain text hline hcode fun lines => ?_
          rw [anyCodeLine, hdecode]
          exact if_neg (by simp [hcode])

/-! ### All lines -/

theorem anyCodeLine_append_of_false (h : anyCodeLine front = .ok false)
    (behind : List (List UInt8)) : anyCodeLine (front ++ behind) = anyCodeLine behind := by
  induction front with
  | nil => rfl
  | cons line front ih =>
      cases reads line with
      | fault fault hline hread => rw [hread] at h; cases h
      | code text hline hcode hread => rw [hread] at h; cases h
      | plain text hline hcode hread =>
          rw [hread] at h
          rw [List.cons_append, hread, ih h]

/-- What is decided is not looked at again. -/
theorem anyCodeLine_append_of_ne_false (h : anyCodeLine front ≠ .ok false)
    (behind : List (List UInt8)) : anyCodeLine (front ++ behind) = anyCodeLine front := by
  induction front with
  | nil => exact absurd rfl h
  | cons line front ih =>
      rw [List.cons_append]
      cases reads line with
      | fault fault hline hread => rw [hread, hread]
      | code text hline hcode hread => rw [hread, hread]
      | plain text hline hcode hread =>
          rw [hread] at h
          rw [hread, hread, ih h]

/-- Code is found exactly if a line is code and all lines before it are text. -/
theorem anyCodeLine_eq_true_iff :
    anyCodeLine lines = .ok true ↔
      ∃ before text behind, lines = before ++ encode text :: behind ∧
        isCodeLine text.toList = true ∧ ∀ line ∈ before, IsText line := by
  constructor
  · intro h
    induction lines with
    | nil => cases h
    | cons line lines ih =>
        cases reads line with
        | fault fault hline hread => rw [hread] at h; cases h
        | code text hline hcode hread =>
            exact ⟨[], text, lines, by rw [hline]; rfl, hcode, by simp⟩
        | plain text hline hcode hread =>
            rw [hread] at h
            obtain ⟨before, found, behind, rfl, hfound, hbefore⟩ := ih h
            refine ⟨line :: before, found, behind, rfl, hfound, ?_⟩
            exact List.forall_mem_cons.2 ⟨⟨text, hline⟩, hbefore⟩
  · rintro ⟨before, text, behind, rfl, hcode, hbefore⟩
    induction before with
    | nil =>
        cases reads (encode text) with
        | fault fault hline hread => exact absurd ⟨text, rfl⟩ hline
        | code other hline hother hread => exact hread behind
        | plain other hline hother hread =>
            rw [Utf8.encode_inj hline, hother] at hcode
            cases hcode
    | cons line before ih =>
        obtain ⟨hline, hbefore⟩ := List.forall_mem_cons.1 hbefore
        rw [List.cons_append]
        cases reads line with
        | fault fault hnone hread => exact absurd hline hnone
        | code other hother hread hcode => exact hcode _
        | plain other hother hplain hread => rw [hread, ih hbefore]

/-- The reading fails exactly if a line is no text and no line before it is code. -/
theorem exists_anyCodeLine_eq_error_iff :
    (∃ fault, anyCodeLine lines = .error fault) ↔
      ∃ before line behind, lines = before ++ line :: behind ∧ ¬ IsText line ∧
        ∀ text, encode text ∈ before → isCodeLine text.toList = false := by
  constructor
  · rintro ⟨fault, h⟩
    induction lines with
    | nil => cases h
    | cons line lines ih =>
        cases reads line with
        | fault _ hline hread => exact ⟨[], line, lines, rfl, hline, by simp⟩
        | code text hline hcode hread => rw [hread] at h; cases h
        | plain text hline hcode hread =>
            rw [hread] at h
            obtain ⟨before, found, behind, rfl, hfound, hbefore⟩ := ih h
            refine ⟨line :: before, found, behind, rfl, hfound, fun other hother => ?_⟩
            rcases List.mem_cons.1 hother with heq | hother
            · rw [Utf8.encode_inj (heq.trans hline), hcode]
            · exact hbefore other hother
  · rintro ⟨before, line, behind, rfl, hline, hbefore⟩
    induction before with
    | nil =>
        cases reads line with
        | fault fault _ hread => exact ⟨fault, hread behind⟩
        | code text htext => exact absurd ⟨text, htext⟩ hline
        | plain text htext => exact absurd ⟨text, htext⟩ hline
    | cons first before ih =>
        rw [List.cons_append]
        cases reads first with
        | fault fault _ hread => exact ⟨fault, hread _⟩
        | code text htext hcode hread =>
            rw [hbefore text (by rw [htext]; exact List.mem_cons_self)] at hcode
            cases hcode
        | plain text htext hcode hread =>
            rw [hread]
            exact ih fun other hother => hbefore other (List.mem_cons_of_mem _ hother)

/-- No code is found exactly if every line is text and none is code. -/
theorem anyCodeLine_eq_false_iff :
    anyCodeLine lines = .ok false ↔
      ∀ line ∈ lines, ∃ text, line = encode text ∧ isCodeLine text.toList = false := by
  induction lines with
  | nil => simp [anyCodeLine]
  | cons line lines ih =>
      rw [List.forall_mem_cons]
      cases reads line with
      | fault fault hline hread =>
          rw [hread]
          refine iff_of_false (fun h => by cases h) ?_
          rintro ⟨⟨text, htext, -⟩, -⟩
          exact hline ⟨text, htext⟩
      | code text hline hcode hread =>
          rw [hread]
          refine iff_of_false (fun h => by cases h) ?_
          rintro ⟨⟨other, hother, hplain⟩, -⟩
          rw [← Utf8.encode_inj (hline.symm.trans hother), hcode] at hplain
          cases hplain
      | plain text hline hcode hread =>
          rw [hread, ih]
          exact (and_iff_right ⟨text, hline, hcode⟩).symm

/-! ### Files -/

/-- **The first line that is code or no text decides**, and no line behind it is looked at.
Content that is empty or ends in a line feed therefore leaves the answer to what is put behind it
if it is no code, and else answers for the whole. -/
theorem isCode_linewise (content : List UInt8) :
    (∀ lines, AreLines 10 13 content lines ↔ lines = byteLines content) ∧
      (isCode content = .ok true ↔ ∃ before text behind,
        byteLines content = before ++ encode text :: behind ∧
          isCodeLine text.toList = true ∧ ∀ line ∈ before, IsText line) ∧
      ((∃ fault, isCode content = .error fault) ↔ ∃ before line behind,
        byteLines content = before ++ line :: behind ∧ ¬ IsText line ∧
          ∀ text, encode text ∈ before → isCodeLine text.toList = false) ∧
      (isCode content = .ok false ↔ ∀ line ∈ byteLines content,
        ∃ text, line = encode text ∧ isCodeLine text.toList = false) ∧
      (content = [] ∨ content.getLast? = some 10 → ∀ behind,
        (isCode content = .ok false → isCode (content ++ behind) = isCode behind) ∧
          (isCode content ≠ .ok false → isCode (content ++ behind) = isCode content)) := by
  refine ⟨fun lines => areLines_iff, anyCodeLine_eq_true_iff, exists_anyCodeLine_eq_error_iff,
    anyCodeLine_eq_false_iff, fun hend behind => ?_⟩
  have hlines : isCode (content ++ behind) = anyCodeLine (byteLines content ++ byteLines behind) :=
    congrArg anyCodeLine (linesBy_append hend behind)
  rw [hlines]
  exact ⟨fun h => anyCodeLine_append_of_false h _, fun h => anyCodeLine_append_of_ne_false h _⟩

/-- A comment leaves the answer to the content behind it, here an opening brace. -/
theorem isCode_linewise_comment :
    [47, 47, 123, 10].getLast? = some (10 : UInt8) ∧ isCode [47, 47, 123, 10] = .ok false ∧
      isCode ([47, 47, 123, 10] ++ [123]) = isCode [123] := by
  obtain ⟨-, -, -, hplain, happend⟩ := isCode_linewise [47, 47, 123, 10]
  have hend : [47, 47, 123, 10].getLast? = some (10 : UInt8) := rfl
  have hlines : byteLines [47, 47, 123, 10] = [encode "//\x7b"] := by decide
  have hfalse : isCode [47, 47, 123, 10] = .ok false := by
    refine hplain.2 fun line hline => ⟨"//\x7b", ?_, by decide⟩
    rw [hlines] at hline
    exact List.mem_singleton.1 hline
  exact ⟨hend, hfalse, (happend (.inr hend) [123]).1 hfalse⟩

end Workbench.Text
