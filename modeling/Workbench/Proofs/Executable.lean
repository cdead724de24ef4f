/-
The first place where a program can be executed.

A directory of the search path stands for one path: the name of the program behind the directory,
and that behind the current directory if it is relative.  The search asks for each of these paths in
order whether it can be executed, and its answer is the first that can.  So directories behind that
one do not occur in the answer, and neither do empty entries, which are dropped before anything is
asked.  The fallback is asked the same question, and only if all the others have been denied.

A relative directory is not what the answer begins with, although executing the program from there
comes to the same.
-/
import Workbench.Proofs.Files.Behind

namespace Workbench

open Workbench.Path (Component)

variable {files : Files} {environment : Environment} {program front behind : List Char}
  {searchPath fallback : Option (List Char)} {path directory : List Char} {required : Bool}

/-! ### The path of a program in a directory -/

/-- The path that a program has in a directory of the search path. -/
def Files.programPath (files : Files) (program directory : List Char) : List Char :=
  Path.join (files.behindHere directory) program

theorem length_components_le (hslash : '/' ∉ program) : (Path.components program).length ≤ 1 := by
  rw [Path.components_of_relative (Path.isAbsolute_of_not_mem hslash), Text.split_eq_splitOn,
    List.splitOn_eq_singleton hslash]
  split
  · rename_i stretches hsplit
    rw [(List.cons.inj hsplit).2.symm]
    decide
  · exact List.length_filterMap_le _ _

theorem candidate_eq_programPath (hslash : '/' ∉ program) (hhome : beginsAtHome directory = false) :
    candidate files environment program directory = files.programPath program directory := by
  have hexpanded : environment.expandDirectory directory = directory := by
    rw [Environment.expandDirectory, hhome, if_neg Bool.false_ne_true]
  rw [candidate, if_neg (Nat.not_lt.2 (length_components_le hslash)), searchDirectory, hexpanded,
    hhome, if_neg Bool.false_ne_true, Files.programPath]

/-! ### The directories of a search path -/

theorem searchList_append (front behind : List Char) :
    Path.searchList (front ++ ':' :: behind) = Path.searchList front ++ Path.searchList behind := by
  simp only [Path.searchList, Text.split_eq_splitOn]
  exact List.splitOn_append_cons_self front behind

/-- The entries of a search path that are not empty. -/
def fullEntries (searchPath : List Char) : List (List Char) :=
  (Path.searchList searchPath).filter (· ≠ [])

theorem searchedDirectories_some (text : List Char) :
    searchedDirectories (some text) = fullEntries text ++ [['.']] :=
  rfl

theorem fullEntries_append (front behind : List Char) :
    fullEntries (front ++ ':' :: behind) = fullEntries front ++ fullEntries behind := by
  rw [fullEntries, searchList_append, List.filter_append, fullEntries, fullEntries]

theorem fullEntries_nil : fullEntries [] = [] :=
  rfl

theorem fullEntries_colon (text : List Char) : fullEntries (':' :: text) = fullEntries text := by
  rw [← List.nil_append (':' :: text), fullEntries_append, fullEntries_nil, List.nil_append]

theorem ne_nil_of_mem_searchedDirectories (h : directory ∈ searchedDirectories searchPath) :
    directory ≠ [] := by
  rcases List.mem_append.1 h with hentry | hhere
  · simpa using (List.mem_filter.1 hentry).2
  · rw [List.mem_singleton.1 hhere]
    exact List.cons_ne_nil _ _

theorem beginsAtHome_of_mem_searchedDirectories
    (hhome : ∀ entry ∈ searchPath.elim [] Path.searchList, beginsAtHome entry = false)
    (h : directory ∈ searchedDirectories searchPath) : beginsAtHome directory = false := by
  rcases List.mem_append.1 h with hentry | hhere
  · exact hhome _ (List.mem_filter.1 hentry).1
  · rw [List.mem_singleton.1 hhere]
    rfl

/-! ### The first of them -/

/-- The path of a program in the first directory where it can be executed. -/
def IsFirstExecutable (files : Files) (program : List Char) (directories : List (List Char))
    (path : List Char) : Prop :=
  ∃ before directory behind, directories = before ++ directory :: behind ∧
    path = files.programPath program directory ∧ files.isExecutable path = true ∧
    ∀ other ∈ before, files.isExecutable (files.programPath program other) = false

section Search

variable (hslash : '/' ∉ program)
  (hhome : ∀ entry ∈ searchPath.elim [] Path.searchList, beginsAtHome entry = false)

include hslash hhome

theorem map_candidate_searchedDirectories :
    (searchedDirectories searchPath).map (candidate files environment program) =
      (searchedDirectories searchPath).map (files.programPath program) :=
  List.map_congr_left fun _ hmem =>
    candidate_eq_programPath hslash (beginsAtHome_of_mem_searchedDirectories hhome hmem)

theorem firstExecutable_eq_some (h : IsFirstExecutable files program
    (searchedDirectories searchPath) path) :
    firstExecutable files environment program searchPath = some path := by
  obtain ⟨before, directory, behind, hdirectories, rfl, hfound, hbefore⟩ := h
  rw [firstExecutable, map_candidate_searchedDirectories hslash hhome, hdirectories,
    List.map_append, List.map_cons, List.find?_eq_some_iff_append]
  refine ⟨hfound, _, _, rfl, ?_⟩
  intro passed hpassed
  obtain ⟨other, hother, rfl⟩ := List.mem_map.1 hpassed
  rw [hbefore other hother]
  rfl

theorem firstExecutable_eq_none (h : ∀ directory ∈ searchedDirectories searchPath,
    files.isExecutable (files.programPath program directory) = false) :
    firstExecutable files environment program searchPath = none := by
  rw [firstExecutable, map_candidate_searchedDirectories hslash hhome, List.find?_eq_none]
  intro passed hpassed
  obtain ⟨directory, hdirectory, rfl⟩ := List.mem_map.1 hpassed
  rw [h directory hdirectory]
  exact Bool.false_ne_true

end Search

theorem isExecutable_of_findExecutableIn
    (h : findExecutableIn files environment program searchPath fallback = some path) :
    files.isExecutable path = true := by
  unfold findExecutableIn at h
  split at h
  · rename_i found hfound
    obtain rfl := Option.some.inj h
    exact List.find?_some hfound
  · obtain ⟨-, hexecutable⟩ := Option.filter_eq_some_iff.1 h
    exact hexecutable

/-- Only the directories count that are searched. -/
theorem findExecutableIn_congr {other : Option (List Char)}
    (h : searchedDirectories searchPath = searchedDirectories other) :
    findExecutableIn files environment program searchPath fallback =
      findExecutableIn files environment program other fallback := by
  rw [findExecutableIn, firstExecutable, h, findExecutableIn, firstExecutable]

/-- **What stands behind the first hit does not matter.** -/
theorem findExecutableIn_append (hslash : '/' ∉ program)
    (hhome : ∀ entry ∈ fullEntries front, beginsAtHome entry = false)
    (hhit : ∃ directory ∈ fullEntries front,
      files.isExecutable (files.programPath program directory) = true) (behind : List Char) :
    findExecutableIn files environment program (some (front ++ ':' :: behind)) fallback =
      findExecutableIn files environment program (some front) fallback := by
  let inFront := ((fullEntries front).map (candidate files environment program)).find?
    files.isExecutable
  have hfound : ∃ found, inFront = some found := by
    obtain ⟨directory, hdirectory, hexecutable⟩ := hhit
    rw [← Option.isSome_iff_exists, List.find?_isSome]
    refine ⟨_, List.mem_map_of_mem hdirectory, ?_⟩
    rwa [candidate_eq_programPath hslash (hhome directory hdirectory)]
  obtain ⟨found, hfound⟩ := hfound
  have hfirst : ∀ more, ((fullEntries front ++ more).map
      (candidate files environment program)).find? files.isExecutable = some found := by
    intro more
    rw [List.map_append, List.find?_append, show List.find? _ _ = some found from hfound,
      Option.some_or]
  rw [findExecutableIn, firstExecutable, searchedDirectories_some, fullEntries_append,
    List.append_assoc, hfirst, findExecutableIn, firstExecutable, searchedDirectories_some, hfirst]

theorem findExecutable_eq_ended_iff :
    findExecutable files environment program fallback required =
        .ended 1 (missingDiagnostic program) ↔
      findExecutableIn files environment program environment.searchPath fallback = none ∧
        required = true := by
  unfold findExecutable
  cases findExecutableIn files environment program environment.searchPath fallback with
  | some found => simp
  | none => cases required <;> simp

theorem findExecutable_eq_answer
    (h : ¬ (findExecutableIn files environment program environment.searchPath fallback = none ∧
      required = true)) :
    findExecutable files environment program fallback required =
      .answer ((findExecutableIn files environment program environment.searchPath fallback).or
        fallback) := by
  unfold findExecutable
  cases hanswer : findExecutableIn files environment program environment.searchPath fallback with
  | some found => rfl
  | none =>
      rw [hanswer] at h
      have hoptional : required = false := Bool.eq_false_iff.2 fun hrequired => h ⟨rfl, hrequired⟩
      rw [hoptional]
      rfl

/-- **The search finds the first place where a program can be executed, and only then looks at the
fallback.**  The places are those behind the full entries of the search path and behind the current
directory, each written as an absolute path; whether a program can be executed there is the same as
from the current directory, unless one of the two paths is too long.  So whatever is found can be
executed, empty entries do not occur in the answer, and neither does anything behind the first hit.
A search that may not fail ends the caller exactly where there is no answer, and the fallback is
returned as it is where there is none and the search may fail. -/
theorem findExecutable_first (files : Files) (environment : Environment) (program : List Char)
    (searchPath fallback : Option (List Char)) (required : Bool)
    (hproper : files.root.Proper) (hhere : files.root.kind? files.here = some .directory)
    (hname : program ≠ []) (hslash : '/' ∉ program)
    (hhome : ∀ entry ∈ searchPath.elim [] Path.searchList, beginsAtHome entry = false) :
    (∀ path, IsFirstExecutable files program (searchedDirectories searchPath) path →
      findExecutableIn files environment program searchPath fallback = some path) ∧
    ((∀ directory ∈ searchedDirectories searchPath,
        files.isExecutable (files.programPath program directory) = false) →
      findExecutableIn files environment program searchPath fallback =
        fallback.filter files.isExecutable) ∧
    (∀ directory ∈ searchedDirectories searchPath,
      Utf8.byteSize (Path.join directory program) < pathLimit →
      Utf8.byteSize (files.programPath program directory) < pathLimit →
      files.isExecutable (files.programPath program directory) =
        files.isExecutable (Path.join directory program)) ∧
    (∀ path, findExecutableIn files environment program searchPath fallback = some path →
      files.isExecutable path = true) ∧
    (∀ front behind,
      findExecutableIn files environment program (some (front ++ ':' :: ':' :: behind)) fallback =
          findExecutableIn files environment program (some (front ++ ':' :: behind)) fallback ∧
        findExecutableIn files environment program (some (':' :: behind)) fallback =
          findExecutableIn files environment program (some behind) fallback ∧
        findExecutableIn files environment program (some (front ++ [':'])) fallback =
          findExecutableIn files environment program (some front) fallback) ∧
    (∀ front, (∀ entry ∈ Path.searchList front, beginsAtHome entry = false) →
      (∃ directory ∈ Path.searchList front, directory ≠ [] ∧
        files.isExecutable (files.programPath program directory) = true) →
      ∀ behind,
        findExecutableIn files environment program (some (front ++ ':' :: behind)) fallback =
          findExecutableIn files environment program (some front) fallback) ∧
    (findExecutable files environment program fallback required =
        .ended 1 (missingDiagnostic program) ↔
      findExecutableIn files environment program environment.searchPath fallback = none ∧
        required = true) ∧
    (¬ (findExecutableIn files environment program environment.searchPath fallback = none ∧
        required = true) →
      findExecutable files environment program fallback required =
        .answer ((findExecutableIn files environment program environment.searchPath fallback).or
          fallback)) := by
  refine ⟨?_, ?_, ?_, ?_, ?_, ?_, findExecutable_eq_ended_iff, findExecutable_eq_answer⟩
  · intro path hfirst
    rw [findExecutableIn, firstExecutable_eq_some hslash hhome hfirst]
  · intro hnone
    rw [findExecutableIn, firstExecutable_eq_none hslash hhome hnone]
  · intro directory hmem hshort hbehind
    exact Files.isExecutable_behindHere hproper hhere (ne_nil_of_mem_searchedDirectories hmem) hname
      hslash hshort hbehind
  · exact fun path => isExecutable_of_findExecutableIn
  · intro front behind
    refine ⟨?_, ?_, ?_⟩ <;> refine findExecutableIn_congr ?_ <;>
      rw [searchedDirectories_some, searchedDirectories_some]
    · rw [fullEntries_append, fullEntries_colon, fullEntries_append]
    · rw [fullEntries_colon]
    · rw [fullEntries_append, fullEntries_nil, List.append_nil]
  · rintro front hfront ⟨directory, hmem, hfull, hexecutable⟩ behind
    refine findExecutableIn_append hslash ?_ ⟨directory, ?_, hexecutable⟩ behind
    · exact fun entry hentry => hfront entry (List.mem_filter.1 hentry).1
    · exact List.mem_filter.2 ⟨hmem, by simpa using hfull⟩

/-- A tool in the current directory, and another one in a directory below it. -/
def twoTools : Files where
  root := .directory true [("w".toList, .directory true [
    ("bin".toList, .directory true [("tool".toList, .file [] 0o755)]),
    ("tool".toList, .file [] 0o700)])]
  here := ["w".toList]

theorem proper_twoTools : twoTools.root.Proper := by
  have hbin : (Node.directory true [("tool".toList, .file [] 0o755)]).Proper :=
    .directory (by decide) (by decide) (by simpa using Node.Proper.file)
  have hhere : (Node.directory true [
      ("bin".toList, .directory true [("tool".toList, .file [] 0o755)]),
      ("tool".toList, .file [] 0o700)]).Proper :=
    .directory (by decide) (by decide) (by simpa using ⟨hbin, .file⟩)
  exact .directory (by decide) (by decide) (by simpa using hhere)

/-- An empty entry in front does not let the tool in the current directory be found. -/
theorem findExecutable_first_below :
    findExecutableIn twoTools (.ofPairs []) "tool".toList (some ":bin".toList) none =
      some "/w/bin/tool".toList := by
  obtain ⟨hfirst, -⟩ := findExecutable_first twoTools (.ofPairs []) "tool".toList
    (some ":bin".toList) none false proper_twoTools (by cbv) (by decide) (by decide) (by decide)
  exact hfirst _ ⟨[], "bin".toList, [['.']], by decide, by decide, by cbv,
    fun _ hmem => absurd hmem List.not_mem_nil⟩

/-- **The answer does not begin with the directory**: the tool in the current directory can be
executed under the path with a dot in front, and what is found is another path. -/
theorem findExecutable_not_joined :
    searchedDirectories none = [['.']] ∧
      twoTools.isExecutable (Path.join ['.'] "tool".toList) = true ∧
      findExecutableIn twoTools (.ofPairs []) "tool".toList none none ≠
        some (Path.join ['.'] "tool".toList) := by
  refine ⟨rfl, by cbv, ?_⟩
  have hfound : findExecutableIn twoTools (.ofPairs []) "tool".toList none none =
      some "/w/tool".toList := by cbv
  rw [hfound]
  decide

end Workbench
