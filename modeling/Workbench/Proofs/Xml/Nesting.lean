/-
Which documents are accepted.

A document is accepted exactly if it can be cut into pieces throughout, its texts and tags can be
read, and its tags form one tree.  The last condition is said by a grammar, `Forest`, which knows
nothing of the stacks that the reader keeps.

Cutting into pieces has a check of its own: a closing tag has to name the innermost open tag, with
whatever blanks stand in its name (`Scan.openNames`).  The names in opening tags have no blanks, so
where this goes well the names in closing tags have none either, and whether blanks at their ends
count makes no difference to the grammar.

What ties the two together is `Progress.Fits`: what may still follow, given the tags that are open
now.  Reading one piece and putting its tag in front of what follows come to the same
(`step_fits`), so a run over all pieces decides the grammar.
-/
import Workbench.Proofs.Xml.Stacks

namespace Workbench.Xml

namespace Progress

/-! ### What may still follow -/

/-- The number of trees that are still to come beside those under construction. -/
def owed (progress : Progress) : Nat :=
  if progress.names = [] ∧ progress.root = none then 1 else 0

/-- Tags that complete what has been read to a document with one root. -/
def Fits (progress : Progress) (tags : List Tag) : Prop :=
  (progress.names = [] ∨ progress.root = none) ∧ Completes progress.names progress.owed tags

theorem fits_start {tags : List Tag} : start.Fits tags ↔ Forest 1 tags := by
  constructor
  · intro h
    exact h.2
  · intro h
    exact ⟨Or.inl rfl, h⟩

theorem fits_congr {progress other : Progress} (hnames : other.names = progress.names)
    (hroot : other.root = progress.root) {tags : List Tag} :
    other.Fits tags ↔ progress.Fits tags := by
  unfold Fits owed
  rw [hnames, hroot]

/-- Inside an element everything that follows belongs to the only root. -/
theorem fits_of_open {progress : Progress} (h : progress.names ≠ []) {tags : List Tag} :
    progress.Fits tags ↔ progress.root = none ∧ Completes progress.names 0 tags := by
  unfold Fits owed
  rw [if_neg fun hboth => h hboth.1]
  simp [h]

theorem fits_nil {progress : Progress} :
    progress.Fits [] ↔ progress.names = [] ∧ progress.root ≠ none := by
  unfold Fits owed
  rw [completes_nil]
  constructor
  · rintro ⟨-, hnames, howed⟩
    refine ⟨hnames, fun hroot => ?_⟩
    rw [if_pos ⟨hnames, hroot⟩] at howed
    cases howed
  · rintro ⟨hnames, hroot⟩
    exact ⟨Or.inl hnames, hnames, if_neg fun hboth => hroot hboth.2⟩

/-- An opening tag begins the root or stands inside of it. -/
theorem fits_opening {progress : Progress} {name : String} {tags : List Tag} :
    progress.Fits (.opening name :: tags) ↔
      progress.root = none ∧ Completes (name :: progress.names) 0 tags := by
  cases hnames : progress.names with
  | nil =>
      unfold Fits owed
      rw [hnames, completes_opening]
      cases progress.root with
      | none => simp
      | some root => simp
  | cons outer names =>
      rw [fits_of_open (by simp [hnames]), hnames, completes_opening_inside]

/-- So does a tag that closes itself. -/
theorem fits_single {progress : Progress} {name : String} {tags : List Tag} :
    progress.Fits (.single name :: tags) ↔
      progress.root = none ∧ Completes progress.names 0 tags := by
  cases hnames : progress.names with
  | nil =>
      unfold Fits owed
      rw [hnames, completes_single]
      cases progress.root with
      | none => simp
      | some root => simp
  | cons outer names =>
      rw [fits_of_open (by simp [hnames]), hnames, completes_single_inside]

theorem fits_closing {progress : Progress} {name : String} {tags : List Tag} :
    progress.Fits (.closing name :: tags) ↔
      ∃ names, progress.names = name :: names ∧ progress.root = none ∧
        Completes names 0 tags := by
  cases hnames : progress.names with
  | nil =>
      unfold Fits
      rw [hnames, completes_closing]
      simp
  | cons expected names =>
      rw [fits_of_open (by simp [hnames]), hnames, completes_closing]
      constructor
      · rintro ⟨hroot, outer, houter, hcompletes⟩
        exact ⟨outer, houter, hroot, hcompletes⟩
      · rintro ⟨outer, houter, hroot, hcompletes⟩
        exact ⟨hroot, outer, houter, hcompletes⟩

/-- A finished element is the root, or what follows closes the elements around it. -/
theorem attach_fits {progress : Progress} (h : progress.InStep) (element : Element)
    {tags : List Tag} :
    (∃ next, progress.attach element = .ok next ∧ next.Fits tags) ↔
      progress.root = none ∧ Completes progress.names 0 tags := by
  rcases attach_cases h element with
    ⟨hopen, next, heq, -, hnames, hroot⟩ | ⟨hnames, hroot, heq⟩ | ⟨-, hroot, heq⟩
  · rw [heq]
    simp only [Except.ok.injEq, exists_eq_left']
    rw [fits_congr hnames hroot, fits_of_open hopen]
  · rw [heq]
    simp only [Except.ok.injEq, exists_eq_left']
    simp [Fits, owed, hnames, hroot]
  · rw [heq]
    simp [hroot]

/-- **Reading a piece and putting its tag in front of what follows come to the same.** -/
theorem step_fits {progress : Progress} (h : progress.InStep) {piece : Markup}
    (hencoded : piece.Encoded) {tags : List Tag} :
    (∃ next, progress.step piece = .ok next ∧ next.Fits tags) ↔
      piece.Legible ∧ progress.Fits (piece.tag?.toList ++ tags) := by
  by_cases hlegible : piece.Legible
  · simp only [hlegible, true_and]
    rcases progress.step_of_legible hlegible hencoded with
      ⟨htag, heq | ⟨content, heq⟩⟩ | ⟨name, attributes, htag, heq⟩ |
        ⟨name, attributes, htag, heq⟩ | ⟨name, htag, heq⟩
    all_goals rw [htag, heq]
    · simp
    · simp only [Except.ok.injEq, exists_eq_left']
      exact fits_congr (progress.names_addText content) (progress.root_addText content)
    · simp only [Except.ok.injEq, exists_eq_left']
      rw [fits_of_open (by simp [enter])]
      show progress.root = none ∧ Completes (name :: progress.names) 0 tags ↔ _
      exact fits_opening.symm
    · rw [attach_fits h]
      exact fits_single.symm
    -- The closing tag pops a name, and the element under it is attached to what is left.
    · refine Iff.trans ?_ fits_closing.symm
      rcases close_cases h name with
        ⟨names, element, outer, hnames, hclosed, hclose⟩ | ⟨hother, _, hclose, -⟩
      · rw [hclose, attach_fits hclosed]
        simp [hnames]
      · rw [hclose]
        simp [hother]
  · obtain ⟨fault, heq, -⟩ := progress.step_of_not_legible hlegible
    rw [heq]
    simp [hlegible]

/-! ### All pieces -/

theorem finish_fits {progress : Progress} (h : progress.InStep) :
    (∃ element, progress.finish = .ok element) ↔ progress.Fits [] := by
  rw [fits_nil]
  obtain ⟨names, elements, root⟩ := progress
  cases elements with
  | nil =>
      have hnames : names = [] := h
      cases root with
      | none => simp [finish]
      | some root => simp [finish, hnames]
  | cons element outer =>
      have hnames : names ≠ [] := by
        intro hnil
        cases h.symm.trans hnil
      simp [finish, hnames]

theorem ofDocument_of_finish {progress : Progress} {fault : Fault}
    (h : progress.finish = .error fault) : fault.OfDocument := by
  unfold finish at h
  split at h <;> cases h <;> trivial

theorem filterMap_tag_cons (piece : Markup) (pieces : List Markup) :
    (piece :: pieces).filterMap Markup.tag?
      = piece.tag?.toList ++ pieces.filterMap Markup.tag? := by
  rw [List.filterMap_cons]
  cases piece.tag? <;> rfl

/-- **A run over all pieces decides whether their tags form what is still to come.** -/
theorem run_fits (pieces : List Markup) {progress : Progress} (h : progress.InStep)
    (hencoded : ∀ piece ∈ pieces, piece.Encoded) :
    (∃ last element, progress.run pieces = .ok last ∧ last.finish = .ok element) ↔
      (∀ piece ∈ pieces, piece.Legible) ∧ progress.Fits (pieces.filterMap Markup.tag?) := by
  induction pieces generalizing progress with
  | nil => simp [run_nil, finish_fits h]
  | cons piece pieces ih =>
      have hfirst : piece.Encoded := hencoded piece (by simp)
      have hmore := fun next (hnext : progress.step piece = .ok next) =>
        ih (inStep_step h hfirst hnext) fun other hother =>
          hencoded other (by simp [hother])
      -- What the first piece leaves to be fitted is what the run over the others decides.
      rw [filterMap_tag_cons, List.forall_mem_cons, and_assoc, and_left_comm,
        ← step_fits h hfirst]
      constructor
      · rintro ⟨last, element, hrun, hfinish⟩
        obtain ⟨next, hnext, hrest⟩ := bind_eq_ok.1 hrun
        obtain ⟨hlegible, hfits⟩ := (hmore next hnext).1 ⟨last, element, hrest, hfinish⟩
        exact ⟨hlegible, next, hnext, hfits⟩
      · rintro ⟨hlegible, next, hnext, hfits⟩
        obtain ⟨last, element, hrest, hfinish⟩ := (hmore next hnext).2 ⟨hlegible, hfits⟩
        exact ⟨last, element, (run_cons_of_ok pieces hnext).trans hrest, hfinish⟩

end Progress

/-! ### The names that are open -/

/-- The names that are open after a piece. -/
def namesAfter (names : List String) : Markup → Except Fault (List String)
  | .opening content => .ok (tagName content :: names)
  | .closing name => closeName names (String.ofList name)
  | _ => .ok names

/-- The names that are open after all pieces. -/
def namesBehind (names : List String) : List Markup → Except Fault (List String)
  | [] => .ok names
  | piece :: pieces => do namesBehind (← namesAfter names piece) pieces

/-- The names that are open at the end of a document, if it can be cut into pieces to its end and
every closing tag names the innermost open one. -/
def Scan.openNames (scan : Scan) : Except Fault (List String) := do
  let names ← namesBehind [] scan.pieces
  match scan.fault with
  | some fault => .error (.markup fault)
  | none => .ok names

namespace Progress

theorem names_attach {progress next : Progress} {element : Element}
    (h : progress.attach element = .ok next) : next.names = progress.names := by
  unfold attach at h
  split at h <;> cases h <;> rfl

theorem names_close {progress next : Progress} {name : String}
    (h : progress.close name = .ok next) : closeName progress.names name = .ok next.names := by
  obtain ⟨names, hnames, hleave⟩ := bind_eq_ok.1 h
  unfold leave at hleave
  split at hleave
  · cases hleave
  · rw [names_attach hleave, hnames]

/-- **What has been read knows the names that are open as they have been cut out.** -/
theorem names_step {progress next : Progress} {piece : Markup} (h : progress.step piece = .ok next) :
    namesAfter progress.names piece = .ok next.names := by
  cases piece with
  | text _ | data _ =>
      obtain ⟨content, -, hpure⟩ := bind_eq_ok.1 h
      cases hpure
      rw [names_addText]
      rfl
  | opening content =>
      obtain ⟨⟨name, attributes⟩, hread, hpure⟩ := bind_eq_ok.1 h
      cases hpure
      rw [tagName_of_readTag hread]
      rfl
  | single content =>
      obtain ⟨⟨name, attributes⟩, -, hattach⟩ := bind_eq_ok.1 h
      rw [names_attach hattach]
      rfl
  | closing name => exact names_close h
  | comment _ | instruction _ | doctype _ =>
      cases h
      rfl

theorem names_run (pieces : List Markup) {progress last : Progress}
    (h : progress.run pieces = .ok last) :
    namesBehind progress.names pieces = .ok last.names := by
  induction pieces generalizing progress with
  | nil =>
      cases h
      rfl
  | cons piece pieces ih =>
      obtain ⟨next, hnext, hrest⟩ := bind_eq_ok.1 h
      rw [namesBehind, names_step hnext]
      exact ih hrest

end Progress

/-- A closing tag with the blanks at the end of its name left out. -/
def Tag.trimmed : Tag → Tag
  | .closing name => .closing (String.ofList (name.toList.reverse.dropWhile isSpace).reverse)
  | tag => tag

/-- There is no blank in a name. -/
def Unspaced (name : String) : Prop :=
  ∀ c ∈ name.toList, isSpace c = false

theorem unspaced_tagName (content : List Char) : Unspaced (tagName content) := by
  intro c hc
  rw [tagName, String.toList_ofList] at hc
  simpa [inName] using List.all_eq_true.1 List.all_takeWhile c hc

theorem Unspaced.trimmed_closing {name : String} (h : Unspaced name) :
    (Tag.closing name).trimmed = .closing name := by
  have hkept : name.toList.reverse.dropWhile isSpace = name.toList.reverse := by
    cases hreverse : name.toList.reverse with
    | nil => rfl
    | cons c rest =>
        have hmem : c ∈ name.toList := List.mem_reverse.1 (hreverse ▸ List.mem_cons_self)
        exact List.dropWhile_cons_of_neg (by simp [h c hmem])
  rw [Tag.trimmed, hkept, List.reverse_reverse, String.ofList_toList]

/-- A closing tag that names an open tag has no blanks in its name. -/
theorem trimmed_of_namesAfter {names next : List String} {piece : Markup}
    (hnames : ∀ name ∈ names, Unspaced name) (h : namesAfter names piece = .ok next) :
    piece.tag?.map Tag.trimmed = piece.tag? ∧ ∀ name ∈ next, Unspaced name := by
  cases piece with
  | closing name =>
      obtain rfl := closeName_eq_ok.1 h
      obtain ⟨hname, hnext⟩ := List.forall_mem_cons.1 hnames
      exact ⟨congrArg some hname.trimmed_closing, hnext⟩
  | opening content =>
      cases h
      exact ⟨rfl, List.forall_mem_cons.2 ⟨unspaced_tagName content, hnames⟩⟩
  | text _ | data _ | single _ | comment _ | instruction _ | doctype _ =>
      cases h
      exact ⟨rfl, hnames⟩

theorem trimmed_of_namesBehind (pieces : List Markup) {names last : List String}
    (hnames : ∀ name ∈ names, Unspaced name) (h : namesBehind names pieces = .ok last) :
    (pieces.filterMap Markup.tag?).map Tag.trimmed = pieces.filterMap Markup.tag? := by
  induction pieces generalizing names with
  | nil => rfl
  | cons piece pieces ih =>
      obtain ⟨next, hnext, hrest⟩ := bind_eq_ok.1 h
      obtain ⟨htag, hmore⟩ := trimmed_of_namesAfter hnames hnext
      rw [Progress.filterMap_tag_cons, List.map_append, ih hmore hrest, ← Option.toList_map, htag]

/-! ### Documents -/

/-- The tags of a scan, in the order of the document. -/
def Scan.tags (scan : Scan) : List Tag :=
  scan.pieces.filterMap Markup.tag?

theorem root_eq_ok {scan : Scan} {element : Element} :
    scan.root = .ok element ↔
      scan.fault = none ∧ ∃ last, Progress.start.run scan.pieces = .ok last ∧
        last.finish = .ok element := by
  unfold Scan.root
  rw [bind_eq_ok]
  cases scan.fault with
  | none => simp
  | some fault => simp

theorem ofDocument_of_root {scan : Scan} (hencoded : ∀ piece ∈ scan.pieces, piece.Encoded)
    {fault : Fault} (h : scan.root = .error fault) : fault.OfDocument := by
  rcases bind_eq_error.1 h with hrun | ⟨last, -, hlast⟩
  · have hkept := Progress.run_keeps _ Progress.inStep_start hencoded
    rw [hrun] at hkept
    exact hkept
  · split at hlast
    · cases hlast
      trivial
    · exact Progress.ofDocument_of_finish hlast

/-- What is not accepted is refused for a fault of the document. -/
theorem exists_message {document : String} (h : ∀ element, read document ≠ .ok element) :
    ∃ message, read document = .error (.xml message) := by
  cases hread : read document with
  | ok element => exact absurd hread (h element)
  | error failure =>
      obtain ⟨fault, hparse, rfl⟩ := mapError_eq_error.1 hread
      have hdocument := ofDocument_of_root (encoded_of_mem_scan _) hparse
      exact ⟨fault.message, by rw [(failure_of_document hdocument).2]⟩

theorem openNames_eq_ok {scan : Scan} {names : List String} :
    scan.openNames = .ok names ↔ scan.fault = none ∧ namesBehind [] scan.pieces = .ok names := by
  unfold Scan.openNames
  rw [bind_eq_ok]
  cases scan.fault with
  | none => simp
  | some fault => simp

/-- **A document is accepted exactly if it can be cut into pieces to its end, with closing tags that
name open ones, its texts and tags can be read, and its tags form one tree.**  Closing tags never
find a name open and no element to go with it, and whatever is refused is refused for a fault of the
document, not for bytes that are no text. -/
theorem read_accepts_iff (document : String) :
    ((∃ element, read document = .ok element) ↔
        (∃ names, (scan (withoutMark document.toList)).openNames = .ok names) ∧
        (∀ piece ∈ (scan (withoutMark document.toList)).pieces, piece.Legible) ∧
        Forest 1 ((scan (withoutMark document.toList)).tags.map Tag.trimmed)) ∧
      ∀ failure, read document = .error failure →
        ∃ fault, parse document = .error fault ∧ fault ≠ .nothingOpen ∧
          failure = .xml fault.message := by
  have hencoded := encoded_of_mem_scan (withoutMark document.toList)
  refine ⟨?_, fun failure hfailure => ?_⟩
  · have hrun := Progress.run_fits _ Progress.inStep_start hencoded
    rw [Progress.fits_start] at hrun
    constructor
    · rintro ⟨element, helement⟩
      obtain ⟨hfault, last, hlast, hfinish⟩ := root_eq_ok.1 (mapError_eq_ok.1 helement)
      obtain ⟨hlegible, hforest⟩ := hrun.1 ⟨last, element, hlast, hfinish⟩
      have hnames := Progress.names_run _ hlast
      refine ⟨⟨last.names, openNames_eq_ok.2 ⟨hfault, hnames⟩⟩, hlegible, ?_⟩
      rwa [Scan.tags, trimmed_of_namesBehind _ (by simp [Progress.start]) hnames]
    · rintro ⟨⟨names, hopen⟩, hlegible, hforest⟩
      obtain ⟨hfault, hnames⟩ := openNames_eq_ok.1 hopen
      rw [Scan.tags, trimmed_of_namesBehind _ (by simp) hnames] at hforest
      obtain ⟨last, element, hlast⟩ := hrun.2 ⟨hlegible, hforest⟩
      exact ⟨element, mapError_eq_ok.2 (root_eq_ok.2 ⟨hfault, last, hlast⟩)⟩
  · obtain ⟨fault, hparse, rfl⟩ := mapError_eq_error.1 hfailure
    obtain ⟨hopen, hmessage⟩ := failure_of_document (ofDocument_of_root hencoded hparse)
    exact ⟨fault, hparse, hopen, hmessage⟩

end Workbench.Xml
