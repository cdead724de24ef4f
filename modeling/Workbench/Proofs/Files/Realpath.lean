/-
Real paths stay as they are.

A real path is a physical path or, where there is none, the path behind the current directory, and
neither of the two is changed when its real path is asked for again.

A physical path leads to its place through directories, without any link, so tracing it again comes
to the same place; if it is too long to be traced again, it is put behind the current directory, and
that changes no path of a place.

A path without a physical path has none in its absolute form either.  What the absolute form leaves
out is dots; where a dot stands at the beginning only, both paths ask for the same names, and the
absolute one asks for them after it has gone down to the current directory.
-/
import Workbench.Proofs.Files.Absolute

namespace Workbench

open Workbench.Path (Name Component stretchEntries)

namespace Files

variable {files : Files} {path result : List Char} {place behind : Place} {links : Nat}
  {names : List Name}

/-! ### Physical paths -/

/-- A text is the physical path of the file at a place. -/
structure IsPhysicalPath (files : Files) (path : List Char) (place : Place) : Prop where
  text : path = placeText place
  /-- It leads to the file. -/
  leads : files.locateAny .follow path = .ok place
  /-- Between its slashes there are the names of the place. -/
  stretches : place ≠ [] → Text.split '/' path = [] :: place
  names : ∀ name ∈ place, name ≠ [] ∧ name ≠ ['.'] ∧ name ≠ ['.', '.']
  /-- It goes through directories only. -/
  directories : ∀ front behind, place = front ++ behind → behind ≠ [] →
    files.root.kind? front = some .directory
  /-- It does not end at a link. -/
  not_link : ∀ target, files.root.kind? place ≠ some (.link target)

/-- What is at the end of a walk that follows links is a file or a directory. -/
theorem isPhysical_of_locateAny (h : files.locateAny .follow path = .ok place)
    (hpresent : files.root.kind? place ≠ none) : files.root.IsPhysical place := by
  obtain ⟨-, hempty, hwalks⟩ := locateAny_eq_ok.1 h
  have htakes := hwalks.takes (by decide) fun hnames => absurd hnames (pathNames_ne_nil hempty)
  exact ⟨hpresent, htakes.not_link⟩

section Proper

variable (hproper : files.root.Proper) (hhere : files.root.kind? files.here = some .directory)

include hproper hhere

/-- There is a physical path where a walk comes to a file and nothing that is asked for on the way
is too long. -/
theorem physical_eq_ok_iff :
    files.physical path = .ok result ↔ ∃ place, files.locateAny .follow path = .ok place ∧
      files.root.kind? place ≠ none ∧
      (∀ text ∈ asked files.root linkLimit (startOf files.here path) (pathNames path),
        Utf8.byteSize text < pathLimit) ∧ placeText place = result := by
  have hstart := kind?_startOf hhere path
  simp only [physical_eq_ok, locateAny_eq_ok, trace_eq_ok hproper
    (Node.isPhysical_of_directory hstart) (fun _ => hstart) fun _ => not_mem_of_mem_pathNames]
  constructor
  · rintro ⟨hzero, hempty, place, ⟨hwalks, hpresent, hshort⟩, htext⟩
    exact ⟨place, ⟨hzero, hempty, hwalks⟩, hpresent, hshort, htext⟩
  · rintro ⟨place, ⟨hzero, hempty, hwalks⟩, hpresent, hshort, htext⟩
    exact ⟨hzero, hempty, place, ⟨hwalks, hpresent, hshort⟩, htext⟩

/-- **The path of a place leads to it.** -/
theorem locateAny_placeText (h : files.root.IsPhysical place) :
    files.locateAny .follow (placeText place) = .ok place := by
  have hfile := h.isFileName hproper
  have hstart : startOf files.here (placeText place) = [] := by
    simpa using startOf_placeText files.here place []
  refine locateAny_eq_ok.2 ⟨zero_not_mem_placeText hfile, placeText_ne_nil place, ?_⟩
  rw [hstart]
  by_cases hroot : place = []
  · rw [hroot]
    exact (walks_dot (Or.inl rfl)).2 ⟨Node.kind?_root hhere, rfl⟩
  · rw [pathNames_placeText (fun name hname => (hfile name hname).entry) hroot]
    exact h.walks hproper

theorem isPhysicalPath_placeText (h : files.root.IsPhysical place) :
    files.IsPhysicalPath (placeText place) place where
  text := rfl
  leads := locateAny_placeText hproper hhere h
  stretches := by
    intro hne
    have hentries : ∀ name ∈ place, (Component.name name).IsEntry := fun name hname =>
      (h.isFileName hproper name hname).entry
    rw [placeText_eq hentries, Text.split, if_pos rfl,
      Path.split_ofComponents (by simpa using hentries) (by simpa using hne)]
    simp [Component.text, Function.comp_def]
  names := by
    intro name hname
    have hlooked : IsLookedUp .follow name [] :=
      (h.isFileName hproper name hname).isLookedUp (by decide) []
    exact ⟨fun hnil => hlooked.not_dot (Or.inl hnil), fun hdot => hlooked.not_dot (Or.inr hdot),
      hlooked.not_dots⟩
  directories := by
    rintro front behind rfl hbehind
    by_contra hfront
    exact h.present (Node.kind?_eq_none.2 (Node.get?_append_eq_none hfront hbehind))
  not_link := h.not_link

/-- A physical path that is asked for again is the same, if it is one at all. -/
theorem eq_of_physical_placeText (h : files.root.IsPhysical place)
    (hagain : files.physical (placeText place) = .ok result) : result = placeText place := by
  obtain ⟨found, hfound, -, -, rfl⟩ := (physical_eq_ok_iff hproper hhere).1 hagain
  rw [locateAny_placeText hproper hhere h, Except.ok.injEq] at hfound
  rw [hfound]

end Proper

/-! ### Dots at the beginning -/

/-- No name of a path is a dot, apart from the first. -/
def DotsLead (path : List Char) : Prop :=
  ['.'] ∉ (slashNames path).tail

instance (path : List Char) : Decidable (DotsLead path) :=
  inferInstanceAs (Decidable (_ ∉ _))

/-- Where no name but the first is a dot, the names are the entries, maybe with a dot in front. -/
theorem slashNames_of_dotsLead (h : DotsLead path) :
    slashNames path = (stretchEntries path).map Component.text ∨
      slashNames path = ['.'] :: (stretchEntries path).map Component.text := by
  have hentries : (slashNames path).filter leadsOn = (stretchEntries path).map Component.text :=
    filter_leadsOn_split path
  have hne : ∀ name ∈ slashNames path, name ≠ [] := by simp [slashNames]
  unfold DotsLead at h
  rw [← hentries]
  cases hnames : slashNames path with
  | nil => exact Or.inl rfl
  | cons first rest =>
      rw [hnames] at h hne
      have hrest : rest.filter leadsOn = rest := by
        rw [List.filter_eq_self]
        intro name hmem
        have hdot : name ≠ ['.'] := by
          rintro rfl
          exact h hmem
        simp [leadsOn, hne name (List.mem_cons_of_mem first hmem), hdot]
      by_cases hdot : first = ['.']
      · exact Or.inr (by simp [hdot, leadsOn, hrest])
      · exact Or.inl (by simp [leadsOn, hne first List.mem_cons_self, hdot, hrest])

/-- Tracing dots leads nowhere. -/
theorem trace_dots (h : ∀ name ∈ names, name = [] ∨ name = ['.']) :
    files.trace links place names = .ok place := by
  induction names with
  | nil => rw [trace]
  | cons name rest ih =>
      obtain ⟨hname, hrest⟩ := List.forall_mem_cons.1 h
      rw [trace, if_pos hname, ih hrest]

/-- What is asked for below a directory is asked for on a way through it. -/
theorem asked_subset_down {root : Node} (hproper : root.Proper)
    (h : root.kind? (place ++ behind) = some .directory) :
    asked root links (place ++ behind) names ⊆ asked root links place (behind ++ names) := by
  induction behind generalizing place with
  | nil => simp
  | cons name rest ih =>
      have hcut : place ++ name :: rest = (place ++ [name]) ++ rest := by simp
      rw [hcut] at h ⊢
      have hentered : root.kind? (place ++ [name]) = some .directory := kind?_of_below h
      have hfollow : Last.follow ≠ .create := by decide
      obtain ⟨-, hlooked⟩ := isLookedUp_of_kind? hproper hentered hfollow []
      rw [List.cons_append, asked_enter hlooked.not_dot hlooked.not_dots hentered (by simp)]
      exact fun text htext => List.mem_cons_of_mem _ (List.mem_append_right _ (ih h htext))

section Proper

variable (hproper : files.root.Proper) (hhere : files.root.kind? files.here = some .directory)

include hproper hhere

/-- What is traced from the root through the current directory is traced from there. -/
theorem trace_of_trace_here (hnames : ∀ name ∈ names, '/' ∉ name)
    (h : files.trace links [] (files.here ++ names) = .ok place) :
    files.trace links files.here names = .ok place := by
  have hroot := Node.kind?_root hhere
  have hdown : files.root.kind? ([] ++ files.here) = some .directory := hhere
  have hall : ∀ name ∈ files.here ++ names, '/' ∉ name := by
    intro name hname
    rcases List.mem_append.1 hname with hname | hname
    · exact (isFileName_here hproper hhere name hname).entry.2
    · exact hnames name hname
  obtain ⟨hwalks, hpresent, hshort⟩ := (trace_eq_ok hproper (Node.isPhysical_of_directory hroot)
    (fun _ => hroot) hall).1 h
  refine (trace_eq_ok hproper (Node.isPhysical_of_directory hhere) (fun _ => hhere) hnames).2
    ⟨?_, hpresent, fun text htext => hshort text (asked_subset_down hproper hdown htext)⟩
  rwa [← walk_eq_ok, walk_down hproper (by decide) hdown, walk_eq_ok] at hwalks

/-- Behind the current directory a path is traced as its absolute form is. -/
theorem trace_of_absolute (hne : stretchEntries path ≠ [])
    (h : files.trace linkLimit [] (pathNames (files.absolute path)) = .ok place) :
    files.trace linkLimit (startOf files.here path) ((stretchEntries path).map Component.text ++
      if path.getLast? = some '/' then [[]] else []) = .ok place := by
  have houtline : (outline (isEntry_here hproper hhere) path).entries ≠ [] := by
    simp [outline, hne]
  rw [absolute_eq (isEntry_here hproper hhere), Outline.pathNames_text] at h
  simp only [houtline, false_or] at h
  have hnames : ∀ name ∈ (stretchEntries path).map Component.text ++
      (if path.getLast? = some '/' then [[]] else []), '/' ∉ name := by
    intro name hname
    rcases List.mem_append.1 hname with hname | hname
    · obtain ⟨component, hcomponent, rfl⟩ := List.mem_map.1 hname
      exact (Path.isEntry_of_mem_stretchEntries hcomponent).2
    · split at hname <;> simp_all
  unfold startOf
  by_cases habsolute : Path.isAbsolute path = true
  · simpa [outline, habsolute] using h
  · rw [if_neg habsolute]
    refine trace_of_trace_here hproper hhere hnames ?_
    simpa [outline, habsolute, Component.text, Function.comp_def] using h

/-- **A path with a physical path in its absolute form has one itself.** -/
theorem exists_physical_of_absolute (hdots : DotsLead path) (hempty : path ≠ [])
    (h : files.physical (files.absolute path) = .ok result) :
    ∃ found, files.physical path = .ok found := by
  have hentries := isEntry_here hproper hhere
  obtain ⟨hzero, -, place, htrace, -⟩ := physical_eq_ok.1 h
  have hzeroPath : '\x00' ∉ path := by
    intro hmem
    obtain ⟨component, hcomponent, hin⟩ := (mem_iff_mem_stretchEntries (by decide)).1 hmem
    refine hzero ((mem_iff_mem_stretchEntries (by decide)).2 ⟨component, ?_, hin⟩)
    rw [absolute_eq hentries, Outline.stretchEntries_text]
    exact List.mem_append_right _ hcomponent
  have hfound : ∃ place, files.trace linkLimit (startOf files.here path) (pathNames path) =
      .ok place := by
    rw [pathNames_eq]
    by_cases hne : stretchEntries path = []
    · refine ⟨_, trace_dots ?_⟩
      have hslash := slashNames_of_dotsLead hdots
      rw [hne] at hslash
      rcases hslash with hslash | hslash <;> rw [hslash] <;> split <;> simp
    · rw [startOf, if_pos (isAbsolute_absolute files path)] at htrace
      have hbehind := trace_of_absolute hproper hhere hne htrace
      rcases slashNames_of_dotsLead hdots with hslash | hslash
      · exact ⟨place, hslash ▸ hbehind⟩
      · refine ⟨place, ?_⟩
        rw [hslash, List.cons_append, trace, if_pos (Or.inr rfl), hbehind]
  obtain ⟨found, hfound⟩ := hfound
  exact ⟨_, physical_eq_ok.2 ⟨hzeroPath, hempty, found, hfound, rfl⟩⟩

/-! ### Real paths -/

/-- Where there is a file, and nothing that is asked for is too long, the real path is physical. -/
theorem isPhysicalPath_of_realpath (h : files.realpath path = .ok result)
    (hplace : files.locateAny .follow path = .ok place) (hpresent : files.root.kind? place ≠ none)
    (hshort : ∀ text ∈ asked files.root linkLimit (startOf files.here path) (pathNames path),
      Utf8.byteSize text < pathLimit) : files.IsPhysicalPath result place := by
  have hphysical := (physical_eq_ok_iff hproper hhere).2 ⟨place, hplace, hpresent, hshort, rfl⟩
  obtain rfl : placeText place = result := by
    rcases realpath_eq_ok.1 h with hfound | ⟨⟨fault, hfault⟩, -⟩
    · simpa [hphysical] using hfound
    · simp [hphysical] at hfault
  exact isPhysicalPath_placeText hproper hhere (isPhysical_of_locateAny hplace hpresent)

omit hproper hhere in
/-- An absolute path is its own real path if it is its own physical path or has none. -/
theorem realpath_eq_self (hempty : path ≠ []) (habsolute : files.absolute path = path)
    (hphysical : ∀ again, files.physical path = .ok again → again = path) :
    files.realpath path = .ok path := by
  rw [realpath_eq_ok]
  cases hagain : files.physical path with
  | ok again => exact Or.inl (congrArg _ (hphysical again hagain))
  | error fault => exact Or.inr ⟨⟨fault, rfl⟩, hempty, habsolute⟩

/-- **A real path is its own real path.** -/
theorem realpath_realpath (hdots : DotsLead path) (h : files.realpath path = .ok result) :
    files.realpath result = .ok result := by
  have hentries := isEntry_here hproper hhere
  rcases realpath_eq_ok.1 h with hfound | ⟨⟨fault, hfault⟩, hempty, rfl⟩
  · obtain ⟨place, hplace, hpresent, -, rfl⟩ := (physical_eq_ok_iff hproper hhere).1 hfound
    have hthere := isPhysical_of_locateAny hplace hpresent
    have hnames : ∀ name ∈ place, (Component.name name).IsEntry := fun name hname =>
      (hthere.isFileName hproper name hname).entry
    exact realpath_eq_self (placeText_ne_nil place) (absolute_placeText hentries hnames)
      fun again => eq_of_physical_placeText hproper hhere hthere
  · have hne : files.absolute path ≠ [] := by
      obtain ⟨rest, hrest⟩ := Path.isAbsolute_iff.1 (isAbsolute_absolute files path)
      simp [hrest]
    refine realpath_eq_self hne (absolute_absolute hentries path) fun again hagain => ?_
    obtain ⟨found, hfound⟩ := exists_physical_of_absolute hproper hhere hdots hempty hagain
    rw [hfault] at hfound
    cases hfound

/-- **Real paths are total, absolute and stable.**  Only the empty path has none; one that leads to a
file has its physical path, unless something that is asked for on the way is too long; and what is a
real path stays one. -/
theorem realpath_stable (path : List Char) :
    ((∃ failure, files.realpath path = .error failure) ↔ path = []) ∧
      ∀ result, files.realpath path = .ok result →
        Path.isAbsolute result = true ∧
        (∀ place, files.locateAny .follow path = .ok place → files.root.kind? place ≠ none →
          (∀ text ∈ asked files.root linkLimit (startOf files.here path) (pathNames path),
            Utf8.byteSize text < pathLimit) →
          files.IsPhysicalPath result place) ∧
        (DotsLead path → files.realpath result = .ok result) := by
  refine ⟨by simp [realpath_eq_error], fun result hresult => ⟨isAbsolute_realpath hresult, ?_, ?_⟩⟩
  · exact fun place => isPhysicalPath_of_realpath hproper hhere hresult
  · exact fun hdots => realpath_realpath hproper hhere hdots hresult

end Proper

/-- A directory with a link to a file elsewhere, and with a link to itself. -/
def dataAndHome : Files where
  root := .directory true [
    ("data".toList, .directory true [("x.csv".toList, .file [] 0o644)]),
    ("home".toList, .directory true [
      ("it".toList, .link "../data/./x.csv".toList), ("lost".toList, .link "lost".toList)])]
  here := ["home".toList]

theorem realpath_stable_dataAndHome :
    dataAndHome.root.Proper ∧ dataAndHome.root.kind? dataAndHome.here = some .directory ∧
      dataAndHome.realpath "./it".toList = .ok "/data/x.csv".toList ∧
      dataAndHome.IsPhysicalPath "/data/x.csv".toList ["data".toList, "x.csv".toList] ∧
      dataAndHome.realpath "/data/x.csv".toList = .ok "/data/x.csv".toList ∧
      dataAndHome.realpath "./lost/../x/".toList = .ok "/home/lost/../x/".toList ∧
      dataAndHome.realpath "/home/lost/../x/".toList = .ok "/home/lost/../x/".toList := by
  have hproper : dataAndHome.root.Proper := by
    refine .directory (by decide) (by decide) ?_
    simp only [List.forall_mem_cons, List.not_mem_nil, false_implies, implies_true, and_true]
    refine ⟨.directory (by decide) (by decide) ?_, .directory (by decide) (by decide) ?_⟩
    · simpa using Node.Proper.file
    · simp only [List.forall_mem_cons, List.not_mem_nil, false_implies, implies_true, and_true]
      exact ⟨.link, .link⟩
  have hhere : dataAndHome.root.kind? dataAndHome.here = some .directory := rfl
  have hit : dataAndHome.realpath "./it".toList = .ok "/data/x.csv".toList := by cbv
  have hlost : dataAndHome.realpath "./lost/../x/".toList = .ok "/home/lost/../x/".toList := by cbv
  have hplace : dataAndHome.locateAny .follow "./it".toList =
      .ok ["data".toList, "x.csv".toList] := by cbv
  have hasked : asked dataAndHome.root linkLimit (startOf dataAndHome.here "./it".toList)
      (pathNames "./it".toList) =
        ["/home/it".toList, "/data".toList, "/data/x.csv".toList] := by cbv
  obtain ⟨-, hphysical, hagain⟩ := (realpath_stable hproper hhere _).2 _ hit
  exact ⟨hproper, hhere, hit, hphysical _ hplace (by decide) (by rw [hasked]; decide),
    hagain (by decide), hlost, ((realpath_stable hproper hhere _).2 _ hlost).2.2 (by decide)⟩

/-! ### Physical paths that are too long -/

/-- Directories of one name, each in the one before. -/
def nested (name : Name) : Nat → Node
  | 0 => .directory true []
  | depth + 1 => .directory true [(name, nested name depth)]

theorem proper_nested {name : Name} (h : IsFileName name) (depth : Nat) :
    (nested name depth).Proper := by
  induction depth with
  | zero => exact .directory (by simp) (by simp) (by simp)
  | succ depth ih => exact .directory (by simpa using h) (by simp) (by simpa using ih)

theorem get?_nested (name : Name) (depth below : Nat) :
    (nested name (depth + below)).get? (List.replicate depth name) = some (nested name below) := by
  induction depth with
  | zero => simp
  | succ depth ih =>
      rw [Nat.succ_add, nested, List.replicate_succ, Node.get?_directory_cons]
      simpa using ih

/-- A name that is long enough for twenty of them to be too long. -/
def longName : Name :=
  List.replicate 250 'a'

theorem isFileName_longName : IsFileName longName :=
  .replicate (by decide) (by decide) (by decide)

/-- The path through some directories of this name. -/
def longPath (depth : Nat) : List Char :=
  Path.ofComponents (List.replicate depth (.name longName))

theorem pathNames_longPath (depth : Nat) :
    pathNames (longPath depth) = List.replicate depth longName := by
  have hentries := isFileName_longName.entry.replicate depth
  cases depth with
  | zero => rfl
  | succ depth =>
      rw [longPath, pathNames_ofComponents hentries (by simp), List.map_replicate]
      rfl

/-- Twenty directories of this name, and a link to the tenth. -/
def deepDirectories : Files where
  root := .directory true [(['l'], .link (longPath 10)), (longName, nested longName 19)]
  here := []

/-- The path to the last directory through the link. -/
def linkedPath : List Char :=
  ['l', '/'] ++ longPath 10

theorem proper_deepDirectories : deepDirectories.root.Proper := by
  refine .directory (by decide +kernel) (by decide +kernel) ?_
  simp only [List.forall_mem_cons, List.not_mem_nil, false_implies, implies_true, and_true]
  exact ⟨.link, proper_nested isFileName_longName 19⟩

theorem kind?_deepDirectories {depth : Nat} (h : depth < 20) :
    deepDirectories.root.kind? (List.replicate (depth + 1) longName) = some .directory := by
  have hother : (longName == ['l']) = false := by decide
  have hlookup : List.lookup longName
      [(['l'], Node.link (longPath 10)), (longName, nested longName 19)] =
      some (nested longName 19) := by
    rw [List.lookup_cons, List.lookup_cons_self, hother]
  have hbelow := get?_nested longName depth (19 - depth)
  rw [Nat.add_sub_cancel' (Nat.le_of_lt_succ h)] at hbelow
  rw [Node.kind?, deepDirectories, List.replicate_succ, Node.get?_directory_cons, hlookup,
    Option.bind_some, hbelow]
  cases 19 - depth <;> rfl

theorem kind?_link : deepDirectories.root.kind? ([] ++ [['l']]) = some (.link (longPath 10)) :=
  rfl

theorem pathNames_linkedPath : pathNames linkedPath = ['l'] :: List.replicate 10 longName := by
  decide +kernel

/-- The names of the link and of the path behind it are those of the last directory. -/
theorem pathNames_longPath_append :
    pathNames (longPath 10) ++ List.replicate 10 longName = List.replicate 20 longName := by
  rw [pathNames_longPath, List.replicate_append_replicate]

theorem startOf_longPath : startOf [] (longPath 10) = [] := by
  simp [startOf]

theorem locate_linkedPath :
    deepDirectories.locate .follow linkedPath = .ok (List.replicate 20 longName) := by
  have hdeepest : deepDirectories.root.kind? (List.replicate 20 longName) = some .directory :=
    kind?_deepDirectories (by decide)
  have hwalks : Walks deepDirectories.root .follow linkLimit [] (['l'] :: List.replicate 10 longName)
      (List.replicate 20 longName) := by
    refine .link rfl ⟨by decide, by decide, by simp, by decide⟩ kind?_link (by simp) ?_
    rw [startOf_longPath, pathNames_longPath_append]
    exact (Node.isPhysical_of_directory hdeepest).walks proper_deepDirectories
  refine locate_eq_ok.2 ⟨by decide +kernel, locateAny_eq_ok.2
    ⟨by decide +kernel, by simp [linkedPath], ?_⟩⟩
  rw [pathNames_linkedPath]
  exact hwalks

/-- The path of the last directory is asked for behind the link. -/
theorem mem_asked_linkedPath : placeText (List.replicate 20 longName) ∈
    asked deepDirectories.root linkLimit [] (pathNames linkedPath) := by
  have hlast : deepDirectories.root.kind? ([] ++ List.replicate 19 longName) = some .directory :=
    kind?_deepDirectories (by decide)
  have hasked : placeText (List.replicate 20 longName) ∈
      asked deepDirectories.root 39 (List.replicate 19 longName) [longName] :=
    mem_asked (by decide) (by decide)
  rw [pathNames_linkedPath, linkLimit, asked_link (by decide) (by decide) kind?_link,
    startOf_longPath, pathNames_longPath_append]
  exact List.mem_cons_of_mem _ (asked_subset_down proper_deepDirectories hlast hasked)

/-- **A physical path that is too long is not found**, though a shorter path leads to the file. -/
theorem realpath_misses_long :
    deepDirectories.root.Proper ∧ deepDirectories.root.kind? deepDirectories.here = some .directory ∧
      deepDirectories.locate .follow linkedPath = .ok (List.replicate 20 longName) ∧
      deepDirectories.root.kind? (List.replicate 20 longName) = some .directory ∧
      deepDirectories.realpath linkedPath = .ok ('/' :: linkedPath) ∧
      ¬ deepDirectories.IsPhysicalPath ('/' :: linkedPath) (List.replicate 20 longName) := by
  have hhere : deepDirectories.root.kind? deepDirectories.here = some .directory := rfl
  have hlong : ¬ Utf8.byteSize (placeText (List.replicate 20 longName)) < pathLimit := by
    decide +kernel
  have hreal : deepDirectories.realpath linkedPath = .ok ('/' :: linkedPath) := by
    rw [realpath_eq_ok]
    cases hphysical : deepDirectories.physical linkedPath with
    | ok found =>
        obtain ⟨-, -, -, hshort, -⟩ := (physical_eq_ok_iff proper_deepDirectories hhere).1 hphysical
        exact absurd (hshort _ mem_asked_linkedPath) hlong
    | error fault =>
        exact Or.inr ⟨⟨fault, rfl⟩, by simp [linkedPath], by decide +kernel⟩
  refine ⟨proper_deepDirectories, hhere, locate_linkedPath, kind?_deepDirectories (by decide),
    hreal, fun hphysical => ?_⟩
  have hother : '/' :: linkedPath ≠ placeText (List.replicate 20 longName) := by
    decide
  exact hother hphysical.text

end Files

end Workbench
