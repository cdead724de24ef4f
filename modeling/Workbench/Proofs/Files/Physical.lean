/-
Real paths are absolute.

The physical path of a file is the text of its place, and that begins with a slash.  So does the
path of the current directory, and what is put behind an absolute path does not change its beginning.
Only the empty path has no real path.
-/
import Workbench.Files.Physical
import Workbench.Proofs.Path.Components
import Workbench.Proofs.Result

namespace Workbench

open Workbench.Path (isAbsolute)

namespace Path

theorem isAbsolute_join {base path : List Char} (h : isAbsolute base = true) :
    isAbsolute (join base path) = true := by
  obtain ⟨rest, rfl⟩ := isAbsolute_iff.1 h
  unfold join
  by_cases hpath : isAbsolute path = true
  · rw [if_pos hpath]
    exact hpath
  · rw [if_neg hpath]
    split <;> rfl

theorem isAbsolute_extend {base : List Char} (h : isAbsolute base = true)
    (components : List Component) : isAbsolute (extend base components) = true := by
  induction components generalizing base with
  | nil => exact h
  | cons component components ih => exact ih (isAbsolute_join h)

end Path

theorem isAbsolute_placeText (place : Place) : isAbsolute (placeText place) = true := by
  cases place <;> rfl

namespace Files

variable {files : Files} {path result : List Char}

theorem isAbsolute_leadingSlashes (h : leadingSlashes path ≠ []) :
    isAbsolute (leadingSlashes path) = true := by
  revert h
  unfold leadingSlashes
  split <;> simp [isAbsolute]

theorem isAbsolute_absolute (files : Files) (path : List Char) :
    isAbsolute (files.absolute path) = true := by
  have hend : ∀ {whole}, isAbsolute whole = true →
      isAbsolute (if path.getLast? = some '/' then Path.join whole [] else whole) = true := by
    intro whole hwhole
    split
    · exact Path.isAbsolute_join hwhole
    · exact hwhole
  unfold absolute
  refine hend ?_
  by_cases habsolute : isAbsolute path = true
  · rw [if_pos habsolute]
    by_cases hslashes : leadingSlashes path = []
    · obtain ⟨rest, rfl⟩ := Path.isAbsolute_iff.1 habsolute
      dsimp only
      rw [if_pos hslashes, hslashes, Path.components_cons_slash]
      -- the first component is the slash
      have hslash : isAbsolute ['/'] = true := rfl
      exact Path.isAbsolute_extend hslash _
    · exact Path.isAbsolute_extend (isAbsolute_leadingSlashes hslashes) _
  · rw [if_neg habsolute]
    exact Path.isAbsolute_extend (isAbsolute_placeText _) _

theorem physical_eq_ok :
    files.physical path = .ok result ↔ '\x00' ∉ path ∧ path ≠ [] ∧
      ∃ place, files.trace linkLimit (startOf files.here path) (pathNames path) = .ok place ∧
        placeText place = result := by
  unfold physical
  by_cases hzero : '\x00' ∈ path
  · simp [hzero]
  · by_cases hempty : path = []
    · simp [hempty]
    · simp [hzero, hempty, bind_eq_ok]

/-- A real path is a physical path, or there is none. -/
theorem realpath_eq_ok :
    files.realpath path = .ok result ↔ files.physical path = .ok result ∨
      (∃ fault, files.physical path = .error fault) ∧ path ≠ [] ∧ files.absolute path = result := by
  unfold realpath
  cases hphysical : files.physical path with
  | ok found => simp
  | error fault => by_cases hempty : path = [] <;> simp [hempty]

theorem realpath_eq_error {failure : Failure} : files.realpath path = .error failure ↔
    path = [] ∧ failure = .other "Failed to get absolute path for \"\"" := by
  unfold realpath
  cases hphysical : files.physical path with
  | ok found => simp [(physical_eq_ok.1 hphysical).2.1]
  | error fault => by_cases hempty : path = [] <;> simp [hempty, eq_comm]

/-- **Real paths are absolute.** -/
theorem isAbsolute_realpath (h : files.realpath path = .ok result) : isAbsolute result = true := by
  rcases realpath_eq_ok.1 h with hphysical | ⟨-, -, rfl⟩
  · obtain ⟨-, -, place, -, rfl⟩ := physical_eq_ok.1 hphysical
    exact isAbsolute_placeText place
  · exact isAbsolute_absolute files path

end Files

end Workbench
