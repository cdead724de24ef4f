/-
Patterns for names.

A pattern is cut at its slashes, and each part is read by itself.  In a part a question mark
stands for one character, an asterisk for any run of characters, and brackets for one
character out of a class, or, with an exclamation mark, for one outside of it.  A part of two
asterisks stands for directories at any depth; two asterisks in any other part are an error,
and so is a bracket that is not closed.

The first character of a class is a member even if it is a closing bracket, and a hyphen
between two characters makes a range of them.
-/
import Workbench.Text.Split

namespace Workbench.Pattern

/-- What one place of a part stands for. -/
inductive Token
  /-- This character. -/
  | char (c : Char)
  /-- One character. -/
  | any
  /-- Any run of characters. -/
  | run
  /-- One character within the ranges. -/
  | within (ranges : List (Char × Char))
  /-- One character outside of the ranges. -/
  | outside (ranges : List (Char × Char))
deriving DecidableEq, Repr, Inhabited

/-- What stands between two slashes. -/
inductive Part
  /-- Any number of directories. -/
  | depths
  /-- One name. -/
  | name (tokens : List Token)
deriving DecidableEq, Repr, Inhabited

/-! ### Reading -/

/-- The ranges that the content of a class spells. -/
def rangesOf : List Char → List (Char × Char)
  | low :: '-' :: high :: rest => (low, high) :: rangesOf rest
  | c :: rest => (c, c) :: rangesOf rest
  | [] => []

/-- The content of a class, which is never empty, and what follows the closing bracket. -/
def cutClass : List Char → Option (List Char × List Char)
  | [] => none
  | c :: rest =>
      match rest.dropWhile (· != ']') with
      | _ :: more => some (c :: rest.takeWhile (· != ']'), more)
      | [] => none

theorem length_cutClass_lt {text content rest : List Char}
    (h : cutClass text = some (content, rest)) : rest.length < text.length := by
  unfold cutClass at h
  split at h
  · cases h
  · split at h
    · rename_i tail _ _ _ heq
      cases h
      have := (List.dropWhile_suffix (l := tail) (· != ']')).length_le
      rw [heq, List.length_cons] at this
      simp only [List.length_cons]
      omega
    · cases h

/-- The tokens of a part. -/
def tokensOf (text : List Char) : Option (List Token) :=
  match text with
  | [] => some []
  | '*' :: '*' :: _ => none
  | '*' :: rest => (tokensOf rest).map (.run :: ·)
  | '?' :: rest => (tokensOf rest).map (.any :: ·)
  | '[' :: '!' :: rest =>
      match _h : cutClass rest with
      | some (content, more) => (tokensOf more).map (.outside (rangesOf content) :: ·)
      | none => none
  | '[' :: rest =>
      match _h : cutClass rest with
      | some (content, more) => (tokensOf more).map (.within (rangesOf content) :: ·)
      | none => none
  | c :: rest => (tokensOf rest).map (.char c :: ·)
termination_by text.length
decreasing_by
  all_goals simp only [List.length_cons]
  · omega
  · omega
  · have := length_cutClass_lt ‹_›
    omega
  · have := length_cutClass_lt ‹_›
    omega
  · omega

/-- The part that a text spells. -/
def partOf (text : List Char) : Option Part :=
  if text = ['*', '*'] then some .depths else (tokensOf text).map .name

/-- The parts of a text; a slash at the end adds none, and an empty text has one. -/
def partsOf (text : List Char) : Option (List Part) :=
  let stretches := Text.split '/' text
  let stretches :=
    if stretches.getLast? = some [] ∧ 1 < stretches.length then stretches.dropLast else stretches
  stretches.mapM partOf

/-! ### Matching -/

/-- Everything that the list ends in, the longest first. -/
def suffixes {α : Type} : List α → List (List α)
  | [] => [[]]
  | a :: as => (a :: as) :: suffixes as

/-- A character lies within one of the ranges. -/
def inRanges (ranges : List (Char × Char)) (c : Char) : Bool :=
  ranges.any fun range => range.1 ≤ c && c ≤ range.2

/-- The token stands for one character, and `c` can be it. -/
def Token.admits (token : Token) (c : Char) : Bool :=
  match token with
  | .char d => c == d
  | .any => true
  | .run => false
  | .within ranges => inRanges ranges c
  | .outside ranges => !inRanges ranges c

/-- The tokens stand for the name. -/
def matchesName : List Token → List Char → Bool
  | [], name => name.isEmpty
  | .run :: tokens, name => (suffixes name).any (matchesName tokens)
  | token :: tokens, name =>
      match name with
      | [] => false
      | c :: rest => token.admits c && matchesName tokens rest

/-- The name, if only one matches because every token is a character. -/
def literal? : List Token → Option (List Char)
  | [] => some []
  | .char c :: tokens => (literal? tokens).map (c :: ·)
  | _ :: _ => none

end Workbench.Pattern
