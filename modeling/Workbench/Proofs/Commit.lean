/-
Nothing is staged beside changes of someone else.

An attempt to commit is a chain of four commands, and what each of them leaves decides whether the
next one is run.  `Course` lists the ways in which the chain can end, each with the commands that
were run and with what made it end there.  That an attempt takes one of these ways is shown step by
step, from the last one to the first.  Whatever the commands leave, the guarantees of `Guarded` can
then be read off the seven ways.
-/
import Workbench.Commit

namespace Workbench.Commit

/-- A command with what it left. -/
abbrev Call := Command × Option Output

/-! ### What an output tells -/

/-- The program ended by itself with status zero. -/
def Succeeds (output : Output) : Prop :=
  output.ending = .exit 0

/-- The program succeeded, and the first line of what it printed is not empty. -/
def NamesRoot (output : Output) : Prop :=
  Succeeds output ∧
    ∃ line, (Text.lines output.stdoutText.toList).head? = some line ∧ line ≠ []

/-- The program succeeded and printed nothing. -/
def ShowsNoChange (output : Output) : Prop :=
  Succeeds output ∧ output.stdout = []

/-- The program succeeded and printed something. -/
def ShowsChange (output : Output) : Prop :=
  Succeeds output ∧ output.stdout ≠ []

/-- A command could be started, and what it left tells what is asked for. -/
def Tells (reply : Option Output) (property : Output → Prop) : Prop :=
  ∃ output, reply = some output ∧ property output

theorem success_iff {output : Output} : output.success = true ↔ Succeeds output := by
  rw [Output.success, beq_iff_eq]
  rfl

theorem succeeded_iff {reply : Option Output} :
    succeeded reply = true ↔ Tells reply Succeeds := by
  cases reply with
  | none => simp [succeeded, Tells]
  | some output => simp [succeeded, Tells, success_iff]

/-- A root is found exactly if one is named. -/
theorem rootOf_isSome {reply : Option Output} :
    (∃ root, rootOf reply = some root) ↔ Tells reply NamesRoot := by
  cases reply with
  | none => simp [rootOf, Tells]
  | some output =>
      by_cases hsuccess : Succeeds output
      · have hfilter : (some output).filter Output.success = some output := by
          rw [Option.filter_some, if_pos (success_iff.2 hsuccess)]
        cases hline : (Text.lines output.stdoutText.toList).head? with
        | none => simp [rootOf, Tells, NamesRoot, hfilter, hline]
        | some line =>
            by_cases hempty : line = []
            · simp [rootOf, Tells, NamesRoot, hfilter, hline, hempty]
            · simp [rootOf, Tells, NamesRoot, hfilter, hline, hempty, hsuccess]
      · have hfilter : (some output).filter Output.success = none := by
          rw [Option.filter_some, if_neg fun h => hsuccess (success_iff.1 h)]
        simp [rootOf, Tells, NamesRoot, hfilter, hsuccess]

/-! ### The ways an attempt can take -/

variable (run : Command → Option Output) (base : List Char) (paths : List (List Char))
  (description : String)

/-- A command is run. -/
def called (command : Command) : Call :=
  (command, run command)

/-- How an attempt ends, and the commands that it has run by then. -/
inductive Course : Outcome → List Call → Prop
  | notADirectory : Course .notADirectory []
  | notARepository (hroot : ¬ Tells (run (rootCommand base)) NamesRoot) :
      Course .notARepository [called run (rootCommand base)]
  | statusFailed {root : List Char} (hroot : rootOf (run (rootCommand base)) = some root)
      (hstatus : ¬ Tells (run (statusCommand root)) Succeeds) :
      Course .statusFailed [called run (rootCommand base), called run (statusCommand root)]
  | localChanges {root : List Char} (hroot : rootOf (run (rootCommand base)) = some root)
      (hstatus : Tells (run (statusCommand root)) ShowsChange) :
      Course .localChanges [called run (rootCommand base), called run (statusCommand root)]
  | addFailed {root : List Char} (hroot : rootOf (run (rootCommand base)) = some root)
      (hstatus : Tells (run (statusCommand root)) ShowsNoChange)
      (hadd : ¬ Tells (run (addCommand root paths)) Succeeds) :
      Course .addFailed
        [called run (rootCommand base), called run (statusCommand root),
          called run (addCommand root paths)]
  | commitFailed {root : List Char} (hroot : rootOf (run (rootCommand base)) = some root)
      (hstatus : Tells (run (statusCommand root)) ShowsNoChange)
      (hadd : Tells (run (addCommand root paths)) Succeeds)
      (hcommit : ¬ Tells (run (commitCommand root description)) Succeeds) :
      Course .commitFailed
        [called run (rootCommand base), called run (statusCommand root),
          called run (addCommand root paths), called run (commitCommand root description)]
  | committed {root : List Char} (hroot : rootOf (run (rootCommand base)) = some root)
      (hstatus : Tells (run (statusCommand root)) ShowsNoChange)
      (hadd : Tells (run (addCommand root paths)) Succeeds)
      (hcommit : Tells (run (commitCommand root description)) Succeeds) :
      Course .committed
        [called run (rootCommand base), called run (statusCommand root),
          called run (addCommand root paths), called run (commitCommand root description)]

variable {run base paths description}

/-- The commands run by a step come after those that led to it. -/
theorem commitStep_course {root : List Char}
    (hroot : rootOf (run (rootCommand base)) = some root)
    (hstatus : Tells (run (statusCommand root)) ShowsNoChange)
    (hadd : Tells (run (addCommand root paths)) Succeeds) :
    Course run base paths description (commitStep run root description).outcome
      (called run (rootCommand base) :: called run (statusCommand root) ::
        called run (addCommand root paths) :: (commitStep run root description).calls) := by
  simp only [commitStep, Report.after]
  by_cases hcommit : succeeded (run (commitCommand root description)) = true
  · rw [if_pos hcommit]
    exact Course.committed hroot hstatus hadd (succeeded_iff.1 hcommit)
  · rw [if_neg hcommit]
    exact Course.commitFailed hroot hstatus hadd fun h => hcommit (succeeded_iff.2 h)

theorem addStep_course {root : List Char}
    (hroot : rootOf (run (rootCommand base)) = some root)
    (hstatus : Tells (run (statusCommand root)) ShowsNoChange) :
    Course run base paths description (addStep run root paths description).outcome
      (called run (rootCommand base) :: called run (statusCommand root) ::
        (addStep run root paths description).calls) := by
  simp only [addStep, Report.after]
  by_cases hadd : succeeded (run (addCommand root paths)) = true
  · rw [if_pos hadd]
    exact commitStep_course hroot hstatus (succeeded_iff.1 hadd)
  · rw [if_neg hadd]
    exact Course.addFailed hroot hstatus fun h => hadd (succeeded_iff.2 h)

theorem statusStep_course {root : List Char}
    (hroot : rootOf (run (rootCommand base)) = some root) :
    Course run base paths description (statusStep run root paths description).outcome
      (called run (rootCommand base) :: (statusStep run root paths description).calls) := by
  have hcall : (statusCommand root, run (statusCommand root)) = called run (statusCommand root) :=
    rfl
  simp only [statusStep, Report.after, hcall]
  cases hreply : run (statusCommand root) with
  | none => exact Course.statusFailed hroot (by simp [hreply, Tells])
  | some output =>
      by_cases hsuccess : Succeeds output
      · simp only [success_iff.2 hsuccess, Bool.not_true, Bool.false_eq_true, if_false]
        by_cases hchange : output.stdout ≠ []
        · rw [if_pos hchange]
          exact Course.localChanges hroot ⟨output, hreply, hsuccess, hchange⟩
        · rw [if_neg hchange]
          exact addStep_course hroot ⟨output, hreply, hsuccess, Decidable.not_not.1 hchange⟩
      · have hfailure : output.success = false :=
          Bool.eq_false_iff.2 fun h => hsuccess (success_iff.1 h)
        simp only [hfailure, Bool.not_false, if_true]
        exact Course.statusFailed hroot (by simpa [hreply, Tells] using hsuccess)

theorem rootStep_course :
    Course run base paths description (rootStep run base paths description).outcome
      (rootStep run base paths description).calls := by
  simp only [rootStep, Report.after]
  cases hroot : rootOf (run (rootCommand base)) with
  | none =>
      refine Course.notARepository fun h => ?_
      obtain ⟨root, hsome⟩ := rootOf_isSome.2 h
      cases hroot.symm.trans hsome
  | some root => exact statusStep_course hroot

/-- **Every attempt takes one of the seven ways.** -/
theorem attempt_course (files : Files) :
    Course run base (paths.map (stagedPath files)) description
      (attempt files run base paths description).outcome
      (attempt files run base paths description).calls := by
  unfold attempt
  by_cases hbase : files.isDirectory base = true
  · rw [if_pos hbase]
    exact rootStep_course
  · rw [if_neg hbase]
    exact Course.notADirectory

/-! ### What a report says -/

/-- The subcommand that a command is, if it is one of the version control program. -/
def subcommand (command : Command) : Option String :=
  if command.program = .named "git".toList then command.arguments.head?.map String.ofList else none

theorem subcommand_gitCommand (directory : List Char) (name : String)
    (arguments : List (List Char)) (input : List UInt8) (captured : Bool) :
    subcommand (gitCommand directory (name.toList :: arguments) input captured) = some name := by
  simp [subcommand, gitCommand]

-- with these `simp` tells the calls of a report apart

@[simp] theorem subcommand_rootCommand (base : List Char) :
    subcommand (rootCommand base) = some "rev-parse" :=
  subcommand_gitCommand base "rev-parse" _ _ _

@[simp] theorem subcommand_statusCommand (root : List Char) :
    subcommand (statusCommand root) = some "status" :=
  subcommand_gitCommand root "status" _ _ _

@[simp] theorem subcommand_addCommand (root : List Char) (paths : List (List Char)) :
    subcommand (addCommand root paths) = some "add" :=
  subcommand_gitCommand root "add" _ _ _

@[simp] theorem subcommand_commitCommand (root : List Char) (description : String) :
    subcommand (commitCommand root description) = some "commit" :=
  subcommand_gitCommand root "commit" _ _ _

/-- The subcommands that were run, the first one first. -/
def Report.subcommands (report : Report) : List (Option String) :=
  report.calls.map fun call => subcommand call.1

/-- A subcommand was run, and what it left tells what is asked for. -/
def Report.Saw (report : Report) (name : String) (property : Output → Prop) : Prop :=
  ∃ call ∈ report.calls, subcommand call.1 = some name ∧ Tells call.2 property

theorem Report.saw_mono {report : Report} {name : String} {property more : Output → Prop}
    (himp : ∀ output, property output → more output) (h : report.Saw name property) :
    report.Saw name more := by
  obtain ⟨call, hcall, hname, output, houtput, hproperty⟩ := h
  exact ⟨call, hcall, hname, output, houtput, himp output hproperty⟩

theorem Report.saw_of_mem {report : Report} {command : Command} {name : String}
    {property : Output → Prop} (hname : subcommand command = some name)
    (hmem : called run command ∈ report.calls) (h : Tells (run command) property) :
    report.Saw name property :=
  ⟨called run command, hmem, hname, h⟩

/-- The subcommands that lead to an outcome. -/
def Outcome.subcommands : Outcome → List (Option String)
  | .notADirectory => []
  | .notARepository => [some "rev-parse"]
  | .statusFailed | .localChanges => [some "rev-parse", some "status"]
  | .addFailed => [some "rev-parse", some "status", some "add"]
  | .commitFailed | .committed => [some "rev-parse", some "status", some "add", some "commit"]

/-- What the last of these subcommands has left if the attempt ends with an outcome. -/
def Report.Explains (report : Report) : Outcome → Prop
  | .notADirectory => True
  | .notARepository => ¬ report.Saw "rev-parse" NamesRoot
  | .statusFailed => ¬ report.Saw "status" Succeeds
  | .localChanges => report.Saw "status" ShowsChange
  | .addFailed => ¬ report.Saw "add" Succeeds
  | .commitFailed => ¬ report.Saw "commit" Succeeds
  | .committed => report.Saw "commit" Succeeds

/-- What can be relied on, whatever the commands leave. -/
structure Report.Guarded (run : Command → Option Output) (report : Report) : Prop where
  /-- What is reported of a command is what it left. -/
  truthful : ∀ call ∈ report.calls, call.2 = run call.1
  /-- The commands are run in one order, none of them twice. -/
  ordered : report.subcommands <+:
    [some "rev-parse", some "status", some "add", some "commit"]
  /-- Files are staged only in a repository without changes. -/
  staged : some "add" ∈ report.subcommands →
    report.Saw "rev-parse" NamesRoot ∧ report.Saw "status" ShowsNoChange
  /-- What is committed has been staged. -/
  committed : some "commit" ∈ report.subcommands →
    report.Saw "rev-parse" NamesRoot ∧ report.Saw "status" ShowsNoChange ∧
      report.Saw "add" Succeeds
  /-- The outcome names the step that ended the attempt. -/
  outcome_iff : ∀ outcome, report.outcome = outcome ↔
    report.subcommands = outcome.subcommands ∧ report.Explains outcome

/-- No two outcomes are explained by the same report. -/
theorem explains_unique {report : Report} {outcome other : Outcome}
    (hsame : outcome.subcommands = other.subcommands) (h : report.Explains outcome)
    (hother : report.Explains other) : outcome = other := by
  have hstatus : report.Explains .statusFailed → report.Explains .localChanges → False :=
    fun hfailed hchange => hfailed (Report.saw_mono (fun _ houtput => houtput.1) hchange)
  have hcommit : report.Explains .commitFailed → report.Explains .committed → False :=
    fun hfailed hcommitted => hfailed hcommitted
  cases outcome <;> cases other <;> simp [Outcome.subcommands] at hsame ⊢
  · exact hcommit hother h
  · exact hstatus h hother
  · exact hstatus hother h
  · exact hcommit h hother

theorem subcommands_of_course {report : Report}
    (h : Course run base paths description report.outcome report.calls) :
    report.subcommands = report.outcome.subcommands := by
  obtain ⟨outcome, printed, calls⟩ := report
  cases h <;> simp [Report.subcommands, Outcome.subcommands, called]

theorem explains_of_course {report : Report}
    (h : Course run base paths description report.outcome report.calls) :
    report.Explains report.outcome := by
  obtain ⟨outcome, printed, calls⟩ := report
  cases h with
  | notADirectory => trivial
  | notARepository hroot => simpa [Report.Explains, Report.Saw, called] using hroot
  | statusFailed hroot hstatus => simpa [Report.Explains, Report.Saw, called] using hstatus
  | localChanges hroot hstatus => simpa [Report.Explains, Report.Saw, called] using hstatus
  | addFailed hroot hstatus hadd => simpa [Report.Explains, Report.Saw, called] using hadd
  | commitFailed hroot hstatus hadd hcommit =>
      simpa [Report.Explains, Report.Saw, called] using hcommit
  | committed hroot hstatus hadd hcommit =>
      simpa [Report.Explains, Report.Saw, called] using hcommit

/-- Whoever comes to stage files has found a repository without changes. -/
theorem staged_of_course {report : Report}
    (h : Course run base paths description report.outcome report.calls)
    (hadd : some "add" ∈ report.subcommands) :
    report.Saw "rev-parse" NamesRoot ∧ report.Saw "status" ShowsNoChange := by
  rw [subcommands_of_course h] at hadd
  obtain ⟨outcome, printed, calls⟩ := report
  cases h with
  | notADirectory | notARepository _ | statusFailed _ _ | localChanges _ _ =>
      simp [Outcome.subcommands] at hadd
  | addFailed hroot hstatus _ | commitFailed hroot hstatus _ _ | committed hroot hstatus _ _ =>
      have hnames := rootOf_isSome.1 ⟨_, hroot⟩
      exact ⟨Report.saw_of_mem (subcommand_rootCommand base) (by simp) hnames,
        Report.saw_of_mem (subcommand_statusCommand _) (by simp) hstatus⟩

theorem added_of_course {report : Report}
    (h : Course run base paths description report.outcome report.calls)
    (hcommit : some "commit" ∈ report.subcommands) :
    some "add" ∈ report.subcommands ∧ report.Saw "add" Succeeds := by
  rw [subcommands_of_course h] at hcommit ⊢
  obtain ⟨outcome, printed, calls⟩ := report
  cases h with
  | notADirectory | notARepository _ | statusFailed _ _ | localChanges _ _ | addFailed _ _ _ =>
      simp [Outcome.subcommands] at hcommit
  | commitFailed _ _ hadd _ | committed _ _ hadd _ =>
      exact ⟨by simp [Outcome.subcommands],
        Report.saw_of_mem (subcommand_addCommand _ _) (by simp) hadd⟩

theorem truthful_of_course {outcome : Outcome} {calls : List Call}
    (h : Course run base paths description outcome calls) :
    ∀ call ∈ calls, call.2 = run call.1 := by
  cases h <;> simp [called]

theorem subcommands_ordered (outcome : Outcome) :
    outcome.subcommands <+: [some "rev-parse", some "status", some "add", some "commit"] := by
  cases outcome <;> decide

theorem guarded_of_course {report : Report}
    (h : Course run base paths description report.outcome report.calls) :
    report.Guarded run := by
  have hsubcommands := subcommands_of_course h
  refine ⟨truthful_of_course h, ?_, staged_of_course h, fun hcommit => ?_, fun outcome => ?_⟩
  · rw [hsubcommands]
    exact subcommands_ordered report.outcome
  · obtain ⟨hadd, hadded⟩ := added_of_course h hcommit
    obtain ⟨hroot, hstatus⟩ := staged_of_course h hadd
    exact ⟨hroot, hstatus, hadded⟩
  · constructor
    · rintro rfl
      exact ⟨hsubcommands, explains_of_course h⟩
    · rintro ⟨hsame, hexplains⟩
      exact explains_unique (hsubcommands.symm.trans hsame) (explains_of_course h) hexplains

/-- **An attempt stages nothing unless there is a repository without changes, commits nothing that
it has not staged, and says which step has ended it.**  This holds whatever the commands leave.
No command is run exactly if there is no directory to run it in. -/
theorem attempt_guarded (files : Files) (run : Command → Option Output) (base : List Char)
    (paths : List (List Char)) (description : String) :
    (attempt files run base paths description).Guarded run ∧
      ((attempt files run base paths description).calls = [] ↔
        files.isDirectory base = false) := by
  refine ⟨guarded_of_course (attempt_course files), ?_⟩
  unfold attempt
  by_cases hbase : files.isDirectory base = true
  · rw [if_pos hbase, hbase]
    simp [rootStep, Report.after]
  · rw [if_neg hbase]
    simp [Report.ending, hbase]

end Workbench.Commit
