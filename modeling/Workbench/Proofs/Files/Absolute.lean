/-
Absolute paths by their text.

What putting a path behind the current directory keeps is its outline: whether it begins with two
slashes, its entries with those of the current directory in front, and whether it ends in a slash.
The text of an outline has the same outline again, so an absolute path that is put behind the
current directory stays as it is.  The path of a place is such a text too.
-/
import Workbench.Proofs.Files.Trace

namespace Workbench

open Workbench.Path (Name Component stretchEntries)

/-! ### Outlines -/

/-- What the text of an absolute path tells. -/
structure Outline where
  /-- There are two slashes at the beginning. -/
  double : Bool
  entries : List Component
  /-- There is a slash at the end. -/
  slash : Bool
  isEntry : ∀ component ∈ entries, component.IsEntry

namespace Outline

def root (outline : Outline) : List Char :=
  if outline.double then ['/', '/'] else ['/']

/-- What stands behind the slashes at the beginning. -/
def behind (outline : Outline) : List Char :=
  Path.ofComponents outline.entries ++
    if outline.entries ≠ [] ∧ outline.slash = true then ['/'] else []

def text (outline : Outline) : List Char :=
  outline.root ++ outline.behind

variable (outline : Outline)

theorem isAbsolute_behind : Path.isAbsolute outline.behind = false := by
  rw [behind]
  by_cases hne : outline.entries = []
  · simp [hne, Path.ofComponents, Path.extend, Path.isAbsolute]
  · rw [Path.isAbsolute_append (Path.ofComponents_ne_nil outline.isEntry hne)]
    exact (Path.components_ofComponents outline.isEntry hne).2

theorem isAbsolute_text : Path.isAbsolute outline.text = true := by
  rw [text, root]
  split <;> rfl

theorem leadingSlashes_text :
    Files.leadingSlashes outline.text = if outline.double then ['/', '/'] else [] := by
  have hrelative := outline.isAbsolute_behind
  rw [text, root]
  cases hbehind : outline.behind with
  | nil => cases outline.double <;> rfl
  | cons c rest =>
      rw [hbehind] at hrelative
      have hc : c ≠ '/' := by simpa [Path.isAbsolute] using hrelative
      cases outline.double <;> simp [Files.leadingSlashes, hc]

theorem stretchEntries_cons_slash (path : List Char) :
    stretchEntries ('/' :: path) = stretchEntries path :=
  Path.stretchEntries_append_slash [] path

theorem slashNames_cons_slash (path : List Char) : slashNames ('/' :: path) = slashNames path :=
  slashNames_append_slash [] path

theorem stretchEntries_text : stretchEntries outline.text = outline.entries := by
  have hentries : stretchEntries (Path.ofComponents outline.entries) = outline.entries := by
    by_cases hne : outline.entries = []
    · rw [hne]
      rfl
    · rw [stretchEntries, Path.split_ofComponents outline.isEntry hne,
        Path.filterMap_ofStretch_text outline.isEntry]
  have hbehind : stretchEntries outline.behind = outline.entries := by
    rw [behind]
    split
    · rw [Path.stretchEntries_append_slash, hentries]
      exact List.append_nil _
    · rw [List.append_nil, hentries]
  rw [text, root]
  split
  · exact (stretchEntries_cons_slash _).trans ((stretchEntries_cons_slash _).trans hbehind)
  · exact (stretchEntries_cons_slash _).trans hbehind

theorem slashNames_text : slashNames outline.text = outline.entries.map Component.text := by
  have hbehind : slashNames outline.behind = outline.entries.map Component.text := by
    rw [behind]
    split
    · rw [slashNames_append_slash, slashNames_ofComponents outline.isEntry]
      exact List.append_nil _
    · rw [List.append_nil, slashNames_ofComponents outline.isEntry]
  rw [text, root]
  split
  · exact (slashNames_cons_slash _).trans ((slashNames_cons_slash _).trans hbehind)
  · exact (slashNames_cons_slash _).trans hbehind

/-- The root ends in a slash, and no entry does. -/
theorem getLast?_root_append :
    (outline.root ++ Path.ofComponents outline.entries).getLast? = some '/' ↔
      outline.entries = [] := by
  by_cases hne : outline.entries = []
  · have hroot : outline.root.getLast? = some '/' := by
      rw [root]
      split <;> rfl
    simpa [hne, Path.ofComponents, Path.extend] using hroot
  · rw [List.getLast?_append_of_ne_nil _ (Path.ofComponents_ne_nil outline.isEntry hne)]
    exact iff_of_false (Path.getLast?_ofComponents outline.isEntry) hne

theorem getLast?_text :
    outline.text.getLast? = some '/' ↔ outline.entries = [] ∨ outline.slash = true := by
  rw [text, behind, ← List.append_assoc]
  by_cases hslash : outline.entries ≠ [] ∧ outline.slash = true
  · rw [if_pos hslash]
    simp [hslash]
  · rw [if_neg hslash, List.append_nil, getLast?_root_append]
    tauto

theorem pathNames_text : pathNames outline.text = outline.entries.map Component.text ++
    if outline.entries = [] ∨ outline.slash = true then [[]] else [] := by
  rw [pathNames_eq, slashNames_text]
  simp only [getLast?_text]

end Outline

/-! ### Putting a path behind the current directory -/

namespace Files

section Outline

variable {files : Files}
  (hentries : ∀ component ∈ files.here.map Component.name, component.IsEntry) (path : List Char)

/-- The outline of a path that is put behind the current directory. -/
def outline : Outline where
  double := decide (leadingSlashes path ≠ [])
  entries := (if Path.isAbsolute path then [] else files.here.map .name) ++ stretchEntries path
  slash := path.getLast? == some '/'
  isEntry := by
    intro component hmem
    rcases List.mem_append.1 hmem with hplace | hentry
    · split at hplace
      · cases hplace
      · exact hentries component hplace
    · exact Path.isEntry_of_mem_stretchEntries hentry

theorem extend_slashes {base : List Char} {entries : List Component}
    (h : ∀ component ∈ entries, component.IsEntry) (hbase : base.getLast? = some '/') :
    Path.extend base entries = base ++ Path.ofComponents entries := by
  cases entries with
  | nil => exact (List.append_nil base).symm
  | cons first rest =>
      obtain ⟨hfirst, hrest⟩ := List.forall_mem_cons.1 h
      have hjoin : Path.join base first.text = base ++ first.text := by
        rw [hfirst.join_text, if_pos (Or.inr hbase)]
      have hnext : Path.extend base (first :: rest) =
          Path.extend (Path.join base first.text) rest := rfl
      rw [hnext, hjoin, Path.ofComponents_cons h,
        Path.extend_eq_append_trail hrest (by simp [hfirst.text_ne_nil])
          (hfirst.getLast?_append base), List.append_assoc]

theorem leadingSlashes_eq (h : leadingSlashes path ≠ []) :
    leadingSlashes path = ['/', '/'] ∧ Path.isAbsolute path = true := by
  revert h
  unfold leadingSlashes
  split <;> simp [Path.isAbsolute]

/-- Without the slash at its end an absolute form is the root and the entries behind it. -/
theorem extend_course :
    (if Path.isAbsolute path then
        Path.extend (leadingSlashes path) (if leadingSlashes path = [] then Path.course path
          else (Path.course path).drop 1)
      else Path.extend (placeText files.here) (Path.course path)) =
        (outline hentries path).root ++ Path.ofComponents (outline hentries path).entries := by
  have hstretches : ∀ component ∈ stretchEntries path, component.IsEntry := fun _ =>
    Path.isEntry_of_mem_stretchEntries
  rw [Outline.root, outline, Path.course_eq]
  by_cases habsolute : Path.isAbsolute path = true
  · by_cases hslashes : leadingSlashes path = []
    · have hroot : Path.extend [] (.root :: stretchEntries path) =
          '/' :: Path.ofComponents (stretchEntries path) := Path.spell_root_cons hstretches
      simpa [habsolute, hslashes] using hroot
    · have hdouble : (['/', '/'] : List Char).getLast? = some '/' := rfl
      simpa [habsolute, (leadingSlashes_eq path hslashes).1] using
        extend_slashes hstretches hdouble
  · have hslashes : leadingSlashes path = [] := by
      by_contra hslashes
      exact habsolute (leadingSlashes_eq path hslashes).2
    have hall : ∀ component ∈ files.here.map .name ++ stretchEntries path, component.IsEntry :=
      fun component hmem => (List.mem_append.1 hmem).elim (hentries component)
        (hstretches component)
    rw [placeText_eq_spell (by simpa using hentries)]
    simp [habsolute, hslashes, Path.extend_spell, Path.spell_root_cons hall]

/-- **Putting a path behind the current directory spells its outline.** -/
theorem absolute_eq : files.absolute path = (outline hentries path).text := by
  have hdef : files.absolute path = (fun whole : List Char =>
      if path.getLast? = some '/' then Path.join whole [] else whole)
        ((outline hentries path).root ++ Path.ofComponents (outline hentries path).entries) := by
    rw [← extend_course]
    rfl
  have hne : (outline hentries path).root ++
      Path.ofComponents (outline hentries path).entries ≠ [] := by
    rw [Outline.root]
    split <;> simp
  have hslash : (outline hentries path).slash = true ↔ path.getLast? = some '/' := by
    simp [outline]
  have hrelative : Path.isAbsolute [] = false := rfl
  rw [hdef, Outline.text, Outline.behind, ← List.append_assoc]
  simp only [Path.join, hrelative, hne, Outline.getLast?_root_append, hslash, false_or,
    Bool.false_eq_true, if_false, List.append_nil]
  by_cases hlast : path.getLast? = some '/'
  · by_cases hnone : (outline hentries path).entries = [] <;> simp [hlast, hnone]
  · simp [hlast]

include hentries in
/-- **What an outline spells stays as it is.** -/
theorem absolute_text (spelled : Outline) : files.absolute spelled.text = spelled.text := by
  have hdouble : (outline hentries spelled.text).double = spelled.double := by
    rw [outline, Outline.leadingSlashes_text]
    cases spelled.double <;> rfl
  have hsame : (outline hentries spelled.text).entries = spelled.entries := by
    simp [outline, Outline.isAbsolute_text, Outline.stretchEntries_text]
  have hslash : (outline hentries spelled.text).slash = true ↔
      spelled.entries = [] ∨ spelled.slash = true := by
    simp [outline, Outline.getLast?_text]
  rw [absolute_eq hentries, Outline.text, Outline.root, hdouble, Outline.behind, hsame]
  simp only [hslash]
  by_cases hnone : spelled.entries = [] <;> simp [Outline.text, Outline.root, Outline.behind, hnone]

include hentries in
theorem absolute_absolute :
    files.absolute (files.absolute path) = files.absolute path := by
  rw [absolute_eq hentries path, absolute_text hentries]

include hentries in
/-- The path of a place is spelled by an outline too. -/
theorem absolute_placeText {place : Place} (h : ∀ name ∈ place, (Component.name name).IsEntry) :
    files.absolute (placeText place) = placeText place := by
  have hspelled : (⟨false, place.map .name, false, by simpa using h⟩ : Outline).text =
      placeText place := by
    simp [Outline.text, Outline.root, Outline.behind, placeText_eq h]
  rw [← hspelled, absolute_text hentries]

end Outline

end Files

end Workbench
