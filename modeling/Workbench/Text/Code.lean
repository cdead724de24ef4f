/-
Telling code from templates, line by line.

An input file is code if some line outside of comments opens a block with a brace.  Braces of
placeholders do not count, because a template full of placeholders is not code.  A
placeholder is a dollar sign directly before an opening brace, up to the first closing brace
after it; without a closing brace there is no placeholder, and the opening brace counts.
-/
import Workbench.Text.Line
import Workbench.Text.Utf8

namespace Workbench.Text

/-- What follows the first `c`, if there is one. -/
def dropPast (c : Char) : List Char → Option (List Char)
  | [] => none
  | d :: rest => if d = c then some rest else dropPast c rest

theorem length_of_dropPast {c : Char} {cs rest : List Char} (h : dropPast c cs = some rest) :
    rest.length < cs.length := by
  induction cs with
  | nil => simp [dropPast] at h
  | cons d cs ih =>
      rw [dropPast] at h
      split at h
      · cases h; simp
      · have := ih h; simp; omega

/-- What follows the placeholder that begins the text, if one does. -/
def afterPlaceholder : List Char → Option (List Char)
  | '$' :: '{' :: rest => dropPast '}' rest
  | _ => none

theorem length_of_afterPlaceholder {cs rest : List Char} (h : afterPlaceholder cs = some rest) :
    rest.length < cs.length := by
  unfold afterPlaceholder at h
  split at h
  · have := length_of_dropPast h; simp; omega
  · cases h

/-- The text without its placeholders. -/
def withoutPlaceholders (text : List Char) : List Char :=
  match _h : afterPlaceholder text with
  | some rest => withoutPlaceholders rest
  | none =>
      match text with
      | [] => []
      | c :: rest => c :: withoutPlaceholders rest
termination_by text.length
decreasing_by
  · exact length_of_afterPlaceholder ‹_›
  · simp

/-- A line is a comment if it is empty or begins with `#` or with `//`. -/
def isComment : List Char → Bool
  | [] => true
  | '#' :: _ => true
  | '/' :: '/' :: _ => true
  | _ => false

/-- A line is code if it is no comment and has an opening brace outside of placeholders. -/
def isCodeLine (line : List Char) : Bool :=
  !isComment line && (withoutPlaceholders line).contains '{'

/-- Whether one of the lines is code.  The lines are read in order up to the first code line;
a line that is not UTF-8 ends the reading with its fault. -/
def anyCodeLine : List (List UInt8) → Except Utf8.Fault Bool
  | [] => .ok false
  | line :: lines =>
      match Utf8.decode line with
      | .error fault => .error fault
      | .ok text => if isCodeLine text.toList then .ok true else anyCodeLine lines

/-- Whether the content of a file is code. -/
def isCode (content : List UInt8) : Except Utf8.Fault Bool :=
  anyCodeLine (byteLines content)

end Workbench.Text
