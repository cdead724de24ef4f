/-
What the commands of an attempt are given.

Data goes through an attempt from one command to the next: the first command prints the directory
that the others are run in, the files are resolved before they are staged, and the description is
what the last command reads.  Each command of an attempt is one of four that are known (`Course`),
so what it is given can be read off the command.

No file can be taken for an option.  It stands behind two hyphens, and moreover it is staged under a
path that begins with a slash.
-/
import Mathlib.Data.List.Forall2
import Workbench.Proofs.Commit
import Workbench.Proofs.Files.Physical
import Workbench.Proofs.Text.FirstLine

namespace Workbench.Commit

open Workbench.Text (IsFirstLine)

variable {files : Files} {run : Command → Option Output} {base path argument : List Char}
  {paths : List (List Char)} {description : String}

/-! ### Files -/

/-- A file is staged under its real path, or as it is written if it has none. -/
def IsStagedAs (files : Files) (path argument : List Char) : Prop :=
  files.realpath path = .ok argument ∨
    (∃ failure, files.realpath path = .error failure) ∧ argument = path

theorem isStagedAs_stagedPath (files : Files) (path : List Char) :
    IsStagedAs files path (stagedPath files path) := by
  unfold IsStagedAs stagedPath
  cases hreal : files.realpath path with
  | ok result => exact Or.inl rfl
  | error failure => exact Or.inr ⟨⟨failure, rfl⟩, rfl⟩

theorem forall₂_stagedPath (files : Files) (paths : List (List Char)) :
    List.Forall₂ (IsStagedAs files) paths (paths.map (stagedPath files)) :=
  List.forall₂_map_right_iff.2 (List.forall₂_same.2 fun path _ => isStagedAs_stagedPath files path)

/-- Whatever a file is called, it is staged under a path that is no option. -/
theorem head?_of_isStagedAs (h : IsStagedAs files path argument) : argument.head? ≠ some '-' := by
  rcases h with hreal | ⟨⟨failure, hfails⟩, rfl⟩
  · obtain ⟨rest, rfl⟩ := Path.isAbsolute_iff.1 (Files.isAbsolute_realpath hreal)
    simp
  · simp [(Files.realpath_eq_error.1 hfails).1]

/-! ### The root -/

/-- The root is the first line of what the first command has printed. -/
theorem isFirstLine_of_rootOf {reply : Option Output} {root : List Char}
    (h : rootOf reply = some root) :
    ∃ output, reply = some output ∧ Succeeds output ∧
      IsFirstLine '\n' '\r' output.stdoutText.toList root ∧ root ≠ [] := by
  obtain ⟨output, rfl, hsuccess, line, hline, hne⟩ := rootOf_isSome.1 ⟨root, h⟩
  have hroot : rootOf (some output) = some line := by
    simp [rootOf, Option.filter_some, success_iff.2 hsuccess, hline, hne]
  obtain rfl : line = root := Option.some.inj (hroot.symm.trans h)
  exact ⟨output, rfl, hsuccess, Text.isFirstLine_of_head? hline, hne⟩

/-! ### The commands -/

/-- The first command asks for the root, and every other is run there. -/
theorem mem_calls_of_course {outcome : Outcome} {calls : List Call} {call : Call}
    (h : Course run base paths description outcome calls) (hcall : call ∈ calls) :
    call = called run (rootCommand base) ∨
      ∃ root, rootOf (run (rootCommand base)) = some root ∧
        calls.head? = some (called run (rootCommand base)) ∧
        (call = called run (statusCommand root) ∨ call = called run (addCommand root paths) ∨
          call = called run (commitCommand root description)) := by
  cases h with
  | notADirectory => cases hcall
  | notARepository hnone => exact Or.inl (List.mem_singleton.1 hcall)
  | statusFailed hroot _ | localChanges hroot _ | addFailed hroot _ _ | commitFailed hroot _ _ _
  | committed hroot _ _ _ =>
      rcases List.mem_cons.1 hcall with hfirst | hlater
      · exact Or.inl hfirst
      · refine Or.inr ⟨_, hroot, rfl, ?_⟩
        simp only [List.mem_cons, List.not_mem_nil, or_false] at hlater
        grind

/-- What the commands of a report are given. -/
structure Report.Carries (files : Files) (base : List Char) (paths : List (List Char))
    (description : String) (report : Report) : Prop where
  /-- The root is asked for in the directory that the files are said to be in. -/
  asked : ∀ call ∈ report.calls, subcommand call.1 = some "rev-parse" →
    call.1.directory = some base
  /-- All other commands are run in the directory that the first one names. -/
  inside : ∀ call ∈ report.calls, subcommand call.1 ≠ some "rev-parse" →
    ∃ first output root, report.calls.head? = some (first, some output) ∧
      subcommand first = some "rev-parse" ∧
      IsFirstLine '\n' '\r' output.stdoutText.toList root ∧ call.1.directory = some root
  /-- Every file is staged, in order, and none of them can be taken for an option. -/
  staged : ∀ call ∈ report.calls, subcommand call.1 = some "add" →
    ∃ arguments, call.1.arguments = "add".toList :: "--".toList :: arguments ∧
      List.Forall₂ (IsStagedAs files) paths arguments ∧
      ∀ argument ∈ arguments, argument.head? ≠ some '-'
  /-- The description is read as it is. -/
  described : ∀ call ∈ report.calls, subcommand call.1 = some "commit" →
    call.1.input = Utf8.encode description

theorem carries_of_course {report : Report}
    (h : Course run base (paths.map (stagedPath files)) description report.outcome report.calls) :
    report.Carries files base paths description := by
  have hstaged := forall₂_stagedPath files paths
  refine ⟨fun call hcall hname => ?_, fun call hcall hname => ?_, fun call hcall hname => ?_,
    fun call hcall hname => ?_⟩
  · rcases mem_calls_of_course h hcall with rfl | ⟨root, -, -, rfl | rfl | rfl⟩
    · rfl
    · simp [called] at hname
    · simp [called] at hname
    · simp [called] at hname
  · rcases mem_calls_of_course h hcall with rfl | ⟨root, hroot, hhead, hlater⟩
    · simp [called] at hname
    · obtain ⟨output, hreply, -, hline, -⟩ := isFirstLine_of_rootOf hroot
      refine ⟨rootCommand base, output, root, ?_, subcommand_rootCommand base, hline, ?_⟩
      · rw [hhead, called, hreply]
      · rcases hlater with rfl | rfl | rfl <;> rfl
  · rcases mem_calls_of_course h hcall with rfl | ⟨root, -, -, rfl | rfl | rfl⟩
    · simp [called] at hname
    · simp [called] at hname
    · refine ⟨paths.map (stagedPath files), rfl, hstaged, fun argument hargument => ?_⟩
      obtain ⟨path, -, rfl⟩ := List.mem_map.1 hargument
      exact head?_of_isStagedAs (isStagedAs_stagedPath files path)
    · simp [called] at hname
  · rcases mem_calls_of_course h hcall with rfl | ⟨root, -, -, rfl | rfl | rfl⟩
    · simp [called] at hname
    · simp [called] at hname
    · simp [called] at hname
    · rfl

/-- **Every command of an attempt is given the right data**, whatever the commands leave. -/
theorem attempt_carries (files : Files) (run : Command → Option Output) (base : List Char)
    (paths : List (List Char)) (description : String) :
    (attempt files run base paths description).Carries files base paths description :=
  carries_of_course (attempt_course files)

end Workbench.Commit
