/-
References to variables in a text, and to the home directory at its beginning.

A reference is a dollar sign with a name of letters, digits and underscores, or with anything
between braces.  Between braces a colon and a hyphen separate the name from a text that stands
for the variable if it has no value, unless the name would be empty.  A reference to a variable
without a value and without such a text stays as it is written, as does an opening brace
without a closing one.  Two dollar signs stand for one.

The text is read once from left to right, and values are copied, not read.
-/
import Workbench.Environment
import Workbench.Text.Alphanumeric
import Workbench.Text.Code

namespace Workbench

/-! ### Variables -/

/-- A character of a name without braces. -/
def inVariableName (c : Char) : Bool :=
  Text.isAlphanumeric c || c == '_'

/-- Cut what stands between braces into the name and the text that stands for a missing value.
A colon and a hyphen at the very beginning separate nothing. -/
def cutDefault : List Char → List Char × Option (List Char)
  | ':' :: '-' :: rest => (':' :: '-' :: rest, none)
  | content => search [] content
where
  /-- The part before the first colon with a hyphen, and the part after it.  `before` holds
  the characters read so far, the last one first. -/
  search (before : List Char) : List Char → List Char × Option (List Char)
    | [] => (before.reverse, none)
    | ':' :: '-' :: rest => (before.reverse, some rest)
    | c :: rest => search (c :: before) rest

/-- What stands between braces, and what follows the closing one. -/
def cutBrace (text : List Char) : Option (List Char × List Char) :=
  match text.dropWhile (· != '}') with
  | _ :: rest => some (text.takeWhile (· != '}'), rest)
  | [] => none

theorem length_cutBrace_lt {text content rest : List Char}
    (h : cutBrace text = some (content, rest)) : rest.length < text.length := by
  unfold cutBrace at h
  split at h
  · rename_i heq
    cases h
    have := (List.dropWhile_suffix (l := text) (· != '}')).length_le
    rw [heq, List.length_cons] at this
    exact this
  · cases h

/-- What a reference with braces stands for. -/
def bracedValue (environment : Environment) (content : List Char) : List Char :=
  match environment.get? (cutDefault content).1, (cutDefault content).2 with
  | some value, _ => value
  | none, some default => default
  | none, none => '$' :: '{' :: content ++ ['}']

/-- What a reference without braces stands for. -/
def plainValue (environment : Environment) (name : List Char) : List Char :=
  (environment.get? name).getD ('$' :: name)

/-- A text with its references replaced. -/
def expandVariables (environment : Environment) (text : List Char) : List Char :=
  match text with
  | [] => []
  | '$' :: '{' :: rest =>
      match _h : cutBrace rest with
      | some (content, more) =>
          bracedValue environment content ++ expandVariables environment more
      | none => '$' :: '{' :: expandVariables environment rest
  | '$' :: '$' :: rest => '$' :: expandVariables environment rest
  | '$' :: c :: rest =>
      if inVariableName c then
        plainValue environment (c :: rest.takeWhile inVariableName) ++
          expandVariables environment (rest.dropWhile inVariableName)
      else '$' :: expandVariables environment (c :: rest)
  | c :: rest => c :: expandVariables environment rest
termination_by text.length
decreasing_by
  all_goals simp only [List.length_cons]
  · have := length_cutBrace_lt ‹_›
    omega
  · omega
  · omega
  · have := (List.dropWhile_suffix (l := rest) inVariableName).length_le
    omega
  · omega
  · omega

@[simp] theorem expandVariables_nil (environment : Environment) :
    expandVariables environment [] = [] := by
  rw [expandVariables]

/-! ### The home directory -/

/-- A text with a tilde at its beginning replaced by the home directory, if there is one.  The
tilde has to be everything, or a slash has to follow. -/
def expandHome (environment : Environment) : List Char → List Char
  | ['~'] => environment.home.getD ['~']
  | '~' :: '/' :: rest => environment.home.getD ['~'] ++ '/' :: rest
  | text => text

/-- A text with its references replaced, the one to the home directory included.  A tilde that
comes to the beginning as the value of a variable stays. -/
def expandReferences (environment : Environment) (text : List Char) : List Char :=
  let expanded := expandVariables environment text
  if text.head? ≠ some '~' ∧ expanded.head? = some '~' then expanded
  else expandHome environment expanded

end Workbench
