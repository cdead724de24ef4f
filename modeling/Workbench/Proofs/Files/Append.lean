/-
What appends do to the files.

An append opens its source, then opens its target or creates it, and copies last.  So there are
three ways in which it can go (`AppendCourse`): it fails and leaves everything as it was; it creates
its target and finds out only then that the source is a directory; or it writes the content of the
source behind that of the target.  In each of them the kind of one place changes at most, and what
holds of single appends goes over to any number of them.
-/
import Mathlib
import Workbench.Files.Content
import Workbench.Proofs.Files.Walk

namespace Workbench.Files

variable {files after : Files} {source target path : List Char} {place : Place}

/-- The kind of what is at a place. -/
def kind? (files : Files) : Place → Option Kind :=
  files.root.kind?

/-- The bytes of the file at a place, if there is one. -/
def bytesAt? (files : Files) (place : Place) : Option (List UInt8) :=
  match files.kind? place with
  | some (.file content _) => some content
  | _ => none

/-! ### Opening -/

theorem isDirectory_iff :
    files.isDirectory path = true ↔
      ∃ listable entries, files.find .follow path = .ok (.directory listable entries) := by
  unfold isDirectory
  cases files.find .follow path with
  | error fault => simp
  | ok node => cases node <;> simp

theorem isListable_iff :
    files.isListable path = true ↔
      ∃ entries, files.find .follow path = .ok (.directory true entries) := by
  unfold isListable
  cases files.find .follow path with
  | error fault => simp
  | ok node => cases node <;> simp

theorem openToRead_eq_ok {node : Node} :
    files.openToRead path = .ok node ↔
      files.find .follow path = .ok node ∧ node.isReadable = true := by
  unfold openToRead
  rw [bind_eq_ok]
  constructor
  · rintro ⟨found, hfound, hnode⟩
    by_cases hreadable : found.isReadable = true
    · rw [if_pos hreadable] at hnode
      obtain rfl : found = node := by simpa using hnode
      exact ⟨hfound, hreadable⟩
    · rw [if_neg hreadable] at hnode
      cases hnode
  · rintro ⟨hfound, hreadable⟩
    exact ⟨node, hfound, if_pos hreadable⟩

theorem contentOf_eq_ok {node : Node} {bytes : List UInt8} :
    contentOf node = .ok bytes ↔ ∃ mode, node = .file bytes mode := by
  cases node <;> simp [contentOf]

theorem read_eq_ok {bytes : List UInt8} :
    files.read path = .ok bytes ↔
      ∃ mode, files.find .follow path = .ok (.file bytes mode) ∧
        (Node.file bytes mode).isReadable = true := by
  unfold read
  rw [bind_eq_ok]
  simp only [openToRead_eq_ok, contentOf_eq_ok]
  constructor
  · rintro ⟨node, ⟨hfound, hreadable⟩, mode, rfl⟩
    exact ⟨mode, hfound, hreadable⟩
  · rintro ⟨mode, hfound, hreadable⟩
    exact ⟨_, ⟨hfound, hreadable⟩, mode, rfl⟩

/-- A target that can be opened is a file already, or it is created. -/
theorem openToAppend_eq_ok :
    files.openToAppend path = .ok (place, after) ↔ files.locate .create path = .ok place ∧
      ((∃ content mode, files.get? place = some (.file content mode) ∧
          (Node.file content mode).isWritable = true ∧ after = files) ∨
        (files.get? place = none ∧ after = files.put place (.file [] newFileMode))) := by
  unfold openToAppend
  rw [bind_eq_ok]
  constructor
  · rintro ⟨found, hfound, h⟩
    cases hnode : files.get? found with
    | none =>
        obtain ⟨rfl, rfl⟩ : found = place ∧ _ = after := by simpa [hnode] using h
        exact ⟨hfound, Or.inr ⟨hnode, rfl⟩⟩
    | some node =>
        cases node with
        | file content mode =>
            by_cases hwritable : (Node.file content mode).isWritable = true
            · obtain ⟨rfl, rfl⟩ : found = place ∧ files = after := by
                simpa [hnode, hwritable] using h
              exact ⟨hfound, Or.inl ⟨content, mode, hnode, hwritable, rfl⟩⟩
            · simp [hnode, hwritable] at h
        | link text => simp [hnode, Node.isWritable] at h
        | directory listable entries => simp [hnode] at h
  · rintro ⟨hfound, ⟨content, mode, hnode, hwritable, rfl⟩ | ⟨hnode, rfl⟩⟩
    · exact ⟨place, hfound, by simp [hnode, hwritable]⟩
    · exact ⟨place, hfound, by simp [hnode]⟩

/-! ### Writing one file -/

/-- A file has been written where there was a file or nothing, and that is all. -/
structure Writes (files after : Files) (place : Place) (content : List UInt8) (mode : Nat) :
    Prop where
  here_eq : after.here = files.here
  kind?_eq : after.kind? = Function.update files.kind? place (some (.file content mode))
  before : files.kind? place = none ∨ ∃ old oldMode, files.kind? place = some (.file old oldMode)

theorem writes_put {content : List UInt8} {mode : Nat} (hroom : files.root.HasRoom place)
    (hbefore : files.kind? place = none ∨
      ∃ old oldMode, files.kind? place = some (.file old oldMode)) :
    files.Writes (files.put place (.file content mode)) place content mode := by
  refine ⟨rfl, Node.kind?_put_file hroom ?_, hbefore⟩
  intro hdirectory
  rcases hbefore with hnone | ⟨old, oldMode, hfile⟩
  · rw [kind?, hdirectory] at hnone
    cases hnone
  · rw [kind?, hdirectory] at hfile
    cases hfile

/-- A file that has been created is written to. -/
theorem Writes.again {written : Files} {content more : List UInt8} {mode : Nat}
    (h : files.Writes after place content mode) (hmore : after.Writes written place more mode) :
    files.Writes written place more mode := by
  refine ⟨hmore.here_eq.trans h.here_eq, ?_, h.before⟩
  rw [hmore.kind?_eq, h.kind?_eq, Function.update_idem]

theorem Writes.kind?_self {content : List UInt8} {mode : Nat}
    (h : files.Writes after place content mode) :
    after.kind? place = some (.file content mode) := by
  rw [h.kind?_eq, Function.update_self]

theorem Writes.kind?_of_ne {content : List UInt8} {mode : Nat} {other : Place}
    (h : files.Writes after place content mode) (hne : other ≠ place) :
    after.kind? other = files.kind? other := by
  rw [h.kind?_eq, Function.update_of_ne hne]

theorem Writes.kind?_eq_some {content : List UInt8} {mode : Nat} {other : Place} {kind : Kind}
    (h : files.Writes after place content mode) (hkind : ∀ old oldMode, kind ≠ .file old oldMode) :
    after.kind? other = some kind ↔ files.kind? other = some kind := by
  by_cases heq : other = place
  · subst heq
    constructor
    · intro hself
      rw [h.kind?_self] at hself
      exact absurd (Option.some.inj hself).symm (hkind content mode)
    · intro hother
      rcases h.before with hnone | ⟨old, oldMode, hfile⟩
      · rw [hother] at hnone
        cases hnone
      · rw [hother] at hfile
        exact absurd (Option.some.inj hfile) (hkind old oldMode)
  · rw [h.kind?_of_ne heq]

theorem Writes.kind?_ne_none {content : List UInt8} {mode : Nat} {other : Place}
    (h : files.Writes after place content mode) (hother : files.kind? other ≠ none) :
    after.kind? other ≠ none := by
  by_cases heq : other = place
  · rw [heq, h.kind?_self]
    simp
  · rwa [h.kind?_of_ne heq]

/-- Paths lead where they have led before a file was written. -/
theorem Writes.grows {content : List UInt8} {mode : Nat}
    (h : files.Writes after place content mode) : files.root.Grows after.root :=
  ⟨fun _ => (h.kind?_eq_some (by simp)).2, fun _ _ => h.kind?_eq_some (by simp),
    fun _ => h.kind?_ne_none⟩

/-! ### One append -/

/-- The source is a directory, and the target is a file that is yet to be created. -/
def LeavesTarget (files : Files) (source target : List Char) : Prop :=
  files.isDirectory source = true ∧
    ∃ place, files.locate .create target = .ok place ∧ files.get? place = none

/-- The ways in which an append can go. -/
inductive AppendCourse (files : Files) (source target : List Char) :
    Files → Except FileFault Unit → Prop
  | unchanged {fault : FileFault} (hleaves : ¬ files.LeavesTarget source target) :
      AppendCourse files source target files (.error fault)
  | created {after : Files} {place : Place} (hsource : files.isDirectory source = true)
      (htarget : files.locate .create target = .ok place) (hnew : files.get? place = none)
      (hwrites : files.Writes after place [] newFileMode) :
      AppendCourse files source target after (.error .isDirectory)
  | appended {after : Files} {place : Place} {bytes : List UInt8} {mode : Nat}
      (hsource : files.read source = .ok bytes)
      (htarget : files.locate .create target = .ok place)
      (hwrites : files.Writes after place ((files.bytesAt? place).getD [] ++ bytes) mode) :
      AppendCourse files source target after (.ok ())

/-- A file is created where there is nothing. -/
theorem writes_create (hroom : files.root.HasRoom place) (hnew : files.get? place = none) :
    files.Writes (files.put place (.file [] newFileMode)) place [] newFileMode :=
  writes_put hroom (Or.inl (Node.kind?_eq_none.2 hnew))

theorem writes_extendFile (bytes : List UInt8) {content : List UInt8} {mode : Nat}
    (h : files.get? place = some (.file content mode)) :
    files.Writes (files.extendFile place bytes) place (content ++ bytes) mode := by
  have hextend :
      files.extendFile place bytes = files.put place (.file (content ++ bytes) mode) := by
    simp [extendFile, h]
  rw [hextend]
  exact writes_put (Node.hasRoom_of_get? h) (Or.inr ⟨content, mode, Node.kind?_eq_file.2 h⟩)

theorem bytesAt?_of_get? {content : List UInt8} {mode : Nat}
    (h : files.get? place = some (.file content mode)) : files.bytesAt? place = some content := by
  rw [bytesAt?, kind?, Node.kind?_eq_file.2 h]

theorem bytesAt?_eq_none (h : files.get? place = none) : files.bytesAt? place = none := by
  rw [bytesAt?, kind?, Node.kind?_eq_none.2 h]

/-- A directory cannot be copied, whether there is a target already or it has been created. -/
theorem course_of_directory (hsource : files.isDirectory source = true)
    (htarget : files.openToAppend target = .ok (place, after)) :
    AppendCourse files source target after (.error .isDirectory) := by
  obtain ⟨hplace, ⟨content, mode, hfile, -, rfl⟩ | ⟨hnew, rfl⟩⟩ := openToAppend_eq_ok.1 htarget
  · refine .unchanged fun hleaves => ?_
    obtain ⟨-, found, hfound, hnone⟩ := hleaves
    obtain rfl : place = found := by simpa [hplace] using hfound
    rw [hfile] at hnone
    cases hnone
  · have hroom := (takes_of_locate hplace (by decide)).hasRoom
    exact .created hsource hplace hnew (writes_create hroom hnew)

theorem course_of_file {bytes : List UInt8} (hsource : files.read source = .ok bytes)
    (htarget : files.openToAppend target = .ok (place, after)) :
    AppendCourse files source target (after.extendFile place bytes) (.ok ()) := by
  obtain ⟨hplace, ⟨content, mode, hfile, -, rfl⟩ | ⟨hnew, rfl⟩⟩ := openToAppend_eq_ok.1 htarget
  · have hextended := writes_extendFile bytes hfile
    have hbytes := bytesAt?_of_get? hfile
    exact .appended hsource hplace (by rwa [hbytes])
  · have hroom := (takes_of_locate hplace (by decide)).hasRoom
    have hextended := (writes_create hroom hnew).again
      (writes_extendFile bytes (Node.get?_put_self hroom))
    exact .appended hsource hplace (by rwa [bytesAt?_eq_none hnew])

/-- **Every append goes in one of the three ways.** -/
theorem append_course (files : Files) (source target : List Char) :
    AppendCourse files source target (files.append source target).1
      (files.append source target).2 := by
  unfold append
  cases hsource : files.openToRead source with
  | error fault =>
      refine .unchanged fun hleaves => ?_
      obtain ⟨listable, entries, hfound⟩ := isDirectory_iff.1 hleaves.1
      rw [openToRead_eq_ok.2 ⟨hfound, rfl⟩] at hsource
      cases hsource
  | ok node =>
      obtain ⟨hfound, hreadable⟩ := openToRead_eq_ok.1 hsource
      dsimp only
      cases htarget : files.openToAppend target with
      | error fault =>
          refine .unchanged fun hleaves => ?_
          obtain ⟨place, hplace, hnew⟩ := hleaves.2
          rw [openToAppend_eq_ok.2 ⟨hplace, Or.inr ⟨hnew, rfl⟩⟩] at htarget
          cases htarget
      | ok opening =>
          cases node with
          | file content mode =>
              exact course_of_file (read_eq_ok.2 ⟨mode, hfound, hreadable⟩) htarget
          | link text => exact absurd rfl (find_ne_link hfound (by decide) text)
          | directory listable entries =>
              exact course_of_directory (isDirectory_iff.2 ⟨_, entries, hfound⟩) htarget

/-! ### Any number of appends -/

/-- An append, by its two paths. -/
structure AppendStep where
  source : List Char
  target : List Char
deriving DecidableEq, Repr

/-- The files after an append, whether it succeeds or not. -/
def next (files : Files) (step : AppendStep) : Files :=
  (files.append step.source step.target).1

/-- The files after appends, one after the other. -/
def appendAll (files : Files) (steps : List AppendStep) : Files :=
  steps.foldl next files

/-- **A failed append changes nothing**, unless its source is a directory and its target does not
exist: then it leaves an empty file behind, and changes nothing else.  This holds of each append in
any number of them. -/
theorem failed_append (files before : Files) (earlier : List AppendStep) (step : AppendStep)
    (fault : FileFault) (hbefore : files.appendAll earlier = before)
    (h : (before.append step.source step.target).2 = .error fault) :
    (before.next step = before ↔ ¬ before.LeavesTarget step.source step.target) ∧
      (before.LeavesTarget step.source step.target → fault = .isDirectory ∧
        ∃ place, before.locate .create step.target = .ok place ∧ before.get? place = none ∧
          before.Writes (before.next step) place [] newFileMode) := by
  have hcourse := append_course before step.source step.target
  rw [h] at hcourse
  unfold next
  generalize (before.append step.source step.target).1 = after at hcourse ⊢
  cases hcourse with
  | unchanged hleaves => exact ⟨iff_of_true rfl hleaves, fun hhas => absurd hhas hleaves⟩
  | @created _ place hsource htarget hnew hwrites =>
      have hleaves : before.LeavesTarget step.source step.target :=
        ⟨hsource, place, htarget, hnew⟩
      refine ⟨iff_of_false ?_ fun hnot => hnot hleaves,
        fun _ => ⟨rfl, place, htarget, hnew, hwrites⟩⟩
      rintro rfl
      have hkind := hwrites.kind?_self
      rw [kind?, Node.kind?_eq_none.2 hnew] at hkind
      cases hkind

/-- A log, a link to it, and a directory. -/
def logFiles : Files where
  root := .directory true [("run.log".toList, .file [49, 10] 0o644),
    ("latest".toList, .link "run.log".toList), ("logs".toList, .directory true [])]
  here := []

/-- A source that is missing is noticed before the target is touched. -/
theorem failed_append_missing_source :
    let step : AppendStep := ⟨"missing.log".toList, "new.log".toList⟩
    let before := logFiles.appendAll [⟨"run.log".toList, "all.log".toList⟩]
    (before.append step.source step.target).2 = .error .notFound ∧
      ¬ before.LeavesTarget step.source step.target ∧ before.next step = before := by
  have hfails : ((logFiles.appendAll [⟨"run.log".toList, "all.log".toList⟩]).append
      "missing.log".toList "new.log".toList).2 = .error .notFound := by cbv
  have hsource : (logFiles.appendAll [⟨"run.log".toList, "all.log".toList⟩]).isDirectory
      "missing.log".toList = false := by cbv
  have hleaves : ¬ (logFiles.appendAll [⟨"run.log".toList, "all.log".toList⟩]).LeavesTarget
      "missing.log".toList "new.log".toList := by
    rintro ⟨hdirectory, -⟩
    rw [hsource] at hdirectory
    cases hdirectory
  have hkeeps := failed_append logFiles _ _ ⟨"missing.log".toList, "new.log".toList⟩ .notFound rfl
    hfails
  exact ⟨hfails, hleaves, hkeeps.1.2 hleaves⟩

/-- A source that is a directory is noticed behind the target, which is left behind. -/
theorem failed_append_leaves_target :
    (logFiles.append "logs".toList "all.log".toList).2 = .error .isDirectory ∧
      logFiles.exists? "all.log".toList = false ∧
      (logFiles.append "logs".toList "all.log".toList).1.exists? "all.log".toList = true := by
  refine ⟨?_, ?_, ?_⟩ <;> cbv

/-! ### Appends between different files -/

/-- Both paths lead to the same file. -/
def sameFile (files : Files) (path other : List Char) : Bool :=
  match files.locate .follow path, files.locate .follow other with
  | .ok place, .ok otherPlace => place == otherPlace && (files.get? place).isSome
  | _, _ => false

/-- No append has one file as its source and as its target, when its turn has come. -/
def appendsApart (files : Files) : List AppendStep → Bool
  | [] => true
  | step :: steps =>
      !files.sameFile step.source step.target && (files.next step).appendsApart steps

/-- What an append adds to the file at a place. -/
def contribution (files : Files) (step : AppendStep) (place : Place) : List UInt8 :=
  match (files.append step.source step.target).2, files.locate .create step.target,
    files.read step.source with
  | .ok (), .ok destination, .ok bytes => if destination = place then bytes else []
  | _, _, _ => []

/-- What appends add to the file at a place, one after the other. -/
def contributions (files : Files) : List AppendStep → Place → List UInt8
  | [], _ => []
  | step :: steps, place =>
      files.contribution step place ++ (files.next step).contributions steps place

/-- The content of one file stands behind that of another, and nothing else has changed. -/
structure Accumulates (files after : Files) (step : AppendStep) (place : Place)
    (bytes : List UInt8) : Prop where
  source : files.read step.source = .ok bytes
  /-- The source is what it was. -/
  kept : after.read step.source = .ok bytes
  target : files.locate .create step.target = .ok place
  /-- The target exists from now on. -/
  found : after.locate .follow step.target = .ok place
  content : after.bytesAt? place = some ((files.bytesAt? place).getD [] ++ bytes)
  others : ∀ other, other ≠ place → after.kind? other = files.kind? other

theorem Writes.bytesAt?_self {content : List UInt8} {mode : Nat}
    (h : files.Writes after place content mode) : after.bytesAt? place = some content := by
  rw [bytesAt?, h.kind?_self]

theorem Writes.bytesAt?_of_ne {content : List UInt8} {mode : Nat} {other : Place}
    (h : files.Writes after place content mode) (hne : other ≠ place) :
    after.bytesAt? other = files.bytesAt? other := by
  rw [bytesAt?, bytesAt?, h.kind?_of_ne hne]

/-- A file that is not written is read as before. -/
theorem Writes.read_eq {content bytes : List UInt8} {mode : Nat} {found : Place}
    (h : files.Writes after place content mode) (hread : files.read path = .ok bytes)
    (hfound : files.locate .follow path = .ok found) (hne : found ≠ place) :
    after.read path = .ok bytes := by
  obtain ⟨oldMode, hfile, hreadable⟩ := read_eq_ok.1 hread
  obtain ⟨other, hother, hnode⟩ := find_eq_ok.1 hfile
  obtain rfl : found = other := by simpa [hfound] using hother
  have hkind := h.kind?_of_ne hne
  rw [kind?, kind?, Node.kind?_eq_file.2 hnode] at hkind
  exact read_eq_ok.2 ⟨oldMode, find_eq_ok.2 ⟨found,
    locate_of_grows hfound (by decide) h.grows h.here_eq, Node.kind?_eq_file.1 hkind⟩, hreadable⟩

/-- A target that is opened is found at the place where it is written. -/
theorem locate_follow_of_create (h : files.locate .create path = .ok place) :
    files.locate .follow path = .ok place :=
  locate_of_grows h (by decide) (Node.Grows.refl _) rfl

theorem ne_of_sameFile_eq_false {found : Place} {bytes : List UInt8}
    (h : files.sameFile source target = false) (hread : files.read source = .ok bytes)
    (hsource : files.locate .follow source = .ok found)
    (htarget : files.locate .create target = .ok place) : found ≠ place := by
  rintro rfl
  obtain ⟨mode, hfile, -⟩ := read_eq_ok.1 hread
  obtain ⟨other, hother, hnode⟩ := find_eq_ok.1 hfile
  obtain rfl : found = other := by simpa [hsource] using hother
  simp [sameFile, hsource, locate_follow_of_create htarget, hnode] at h

/-! ### What accumulates -/

/-- **A successful append puts the content of its source behind that of its target**, and changes
nothing else. -/
theorem accumulates_next (files : Files) (step : AppendStep)
    (hapart : files.sameFile step.source step.target = false)
    (h : (files.append step.source step.target).2 = .ok ()) :
    ∃ place bytes, files.Accumulates (files.next step) step place bytes := by
  have hcourse := append_course files step.source step.target
  rw [h] at hcourse
  unfold next
  generalize (files.append step.source step.target).1 = after at hcourse ⊢
  cases hcourse with
  | @appended _ place bytes mode hsource htarget hwrites =>
      obtain ⟨_, hfile, -⟩ := read_eq_ok.1 hsource
      obtain ⟨found, hfound, -⟩ := find_eq_ok.1 hfile
      have hne : found ≠ place := ne_of_sameFile_eq_false hapart hsource hfound htarget
      exact ⟨place, bytes, hsource, hwrites.read_eq hsource hfound hne, htarget,
        locate_of_grows htarget (by decide) hwrites.grows hwrites.here_eq, hwrites.bytesAt?_self,
        fun other hother => hwrites.kind?_of_ne hother⟩

/-- Whether an append succeeds or not, each file has grown by what it contributes. -/
theorem bytesAt?_next (files : Files) (step : AppendStep) (place : Place) :
    ((files.next step).bytesAt? place).getD [] =
        (files.bytesAt? place).getD [] ++ files.contribution step place ∧
      ((files.bytesAt? place).isSome = true → ((files.next step).bytesAt? place).isSome = true) := by
  have hcourse := append_course files step.source step.target
  unfold next contribution
  generalize files.append step.source step.target = result at hcourse ⊢
  obtain ⟨after, outcome⟩ := result
  cases hcourse with
  | unchanged hleaves => simp
  | @created _ destination hsource htarget hnew hwrites =>
      by_cases heq : place = destination
      · subst heq
        simp [hwrites.bytesAt?_self, bytesAt?_eq_none hnew]
      · simp [hwrites.bytesAt?_of_ne heq]
  | @appended _ destination bytes mode hsource htarget hwrites =>
      by_cases heq : place = destination
      · subst heq
        simp [hwrites.bytesAt?_self, htarget, hsource]
      · simp [hwrites.bytesAt?_of_ne heq, htarget, hsource, Ne.symm heq]

/-- Every file has grown by what all appends contribute. -/
theorem bytesAt?_appendAll (files : Files) (steps : List AppendStep) (place : Place) :
    ((files.appendAll steps).bytesAt? place).getD [] =
        (files.bytesAt? place).getD [] ++ files.contributions steps place ∧
      ((files.bytesAt? place).isSome = true →
        ((files.appendAll steps).bytesAt? place).isSome = true) := by
  induction steps generalizing files with
  | nil => simp [appendAll, contributions]
  | cons step steps ih =>
      obtain ⟨hbytes, hexists⟩ := bytesAt?_next files step place
      obtain ⟨hall, hallExists⟩ := ih (files.next step)
      have hnext : files.appendAll (step :: steps) = (files.next step).appendAll steps := rfl
      rw [hnext, hall, hbytes, contributions, List.append_assoc]
      exact ⟨rfl, fun h => hallExists (hexists h)⟩

theorem sameFile_of_appendsApart {earlier later : List AppendStep} {step : AppendStep}
    (h : files.appendsApart (earlier ++ step :: later) = true) :
    (files.appendAll earlier).sameFile step.source step.target = false := by
  induction earlier generalizing files with
  | nil =>
      simp only [List.nil_append, appendsApart, Bool.and_eq_true, Bool.not_eq_true'] at h
      exact h.1
  | cons first earlier ih =>
      simp only [List.cons_append, appendsApart, Bool.and_eq_true] at h
      exact ih h.2

/-- **Appends accumulate exactly.**  Each one that succeeds puts the content of its source behind
that of its target and changes nothing else, so in the end each file holds what it held, followed by
what the appends have contributed to it. -/
theorem appends_accumulate (files : Files) (steps : List AppendStep)
    (hapart : files.appendsApart steps = true) :
    (∀ earlier step later, steps = earlier ++ step :: later →
      ((files.appendAll earlier).append step.source step.target).2 = .ok () →
      ∃ place bytes, (files.appendAll earlier).Accumulates
        (files.appendAll (earlier ++ [step])) step place bytes) ∧
    ∀ place,
      ((files.appendAll steps).bytesAt? place).getD [] =
          (files.bytesAt? place).getD [] ++ files.contributions steps place ∧
        ((files.bytesAt? place).isSome = true →
          ((files.appendAll steps).bytesAt? place).isSome = true) := by
  refine ⟨?_, bytesAt?_appendAll files steps⟩
  rintro earlier step later rfl hsucceeds
  have hnext : files.appendAll (earlier ++ [step]) = (files.appendAll earlier).next step := by
    simp [appendAll, List.foldl_append]
  rw [hnext]
  exact accumulates_next _ step (sameFile_of_appendsApart hapart) hsucceeds

/-- A log is appended to another, which is appended to it in turn through a link; a directory is
appended to nothing. -/
theorem appends_accumulate_crosswise :
    let steps : List AppendStep := [⟨"run.log".toList, "all.log".toList⟩,
      ⟨"logs".toList, "new.log".toList⟩, ⟨"all.log".toList, "latest".toList⟩]
    logFiles.appendsApart steps = true ∧
      ((logFiles.appendAll steps).bytesAt? ["run.log".toList]).getD [] = [49, 10] ++ [49, 10] := by
  have hapart : logFiles.appendsApart [⟨"run.log".toList, "all.log".toList⟩,
      ⟨"logs".toList, "new.log".toList⟩, ⟨"all.log".toList, "latest".toList⟩] = true := by cbv
  have hbytes : (logFiles.bytesAt? ["run.log".toList]).getD [] = [49, 10] := by cbv
  have hadded : logFiles.contributions [⟨"run.log".toList, "all.log".toList⟩,
      ⟨"logs".toList, "new.log".toList⟩, ⟨"all.log".toList, "latest".toList⟩]
      ["run.log".toList] = [49, 10] := by cbv
  obtain ⟨-, hall⟩ := appends_accumulate logFiles _ hapart
  refine ⟨hapart, ?_⟩
  rw [(hall ["run.log".toList]).1, hbytes, hadded]

end Workbench.Files
