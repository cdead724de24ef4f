/-
Physical paths that are asked for name by name.

A place in the tree is reached from the root through directories only, so its text leads to it
without any link, and asking for a name by its physical path gives what the directory holds under
that name.  In this way tracing goes along the names just as a walk does: it leaves out the dots,
but only where the names behind them, or a question for the directory itself, fail as the dots would
have failed.  What remains different is that a question can be too long.  So tracing succeeds exactly
where a walk comes to a file and nothing that is asked for on the way is too long (`trace_eq_ok`).
-/
import Workbench.Files.Physical
import Workbench.Proofs.Files.Behind

namespace Workbench

open Workbench.Path (Name Component)

/-! ### Texts of places -/

/-- The names between the slashes of a path. -/
def slashNames (path : List Char) : List Name :=
  (Text.split '/' path).filter (· ≠ [])

theorem pathNames_eq (path : List Char) :
    pathNames path = slashNames path ++ if path.getLast? = some '/' then [[]] else [] :=
  rfl

theorem not_mem_of_mem_pathNames {path : List Char} {name : Name} (h : name ∈ pathNames path) :
    '/' ∉ name := by
  rw [pathNames_eq, slashNames] at h
  rcases List.mem_append.1 h with h | h
  · exact Text.not_mem_of_mem_split (List.mem_filter.1 h).1
  · split at h
    · rw [List.mem_singleton.1 h]
      exact List.not_mem_nil
    · cases h

theorem slashNames_append_slash (front behind : List Char) :
    slashNames (front ++ '/' :: behind) = slashNames front ++ slashNames behind := by
  rw [slashNames, Path.split_append_slash, List.filter_append]
  rfl

theorem slashNames_ofComponents {entries : List Component}
    (h : ∀ component ∈ entries, component.IsEntry) :
    slashNames (Path.ofComponents entries) = entries.map Component.text := by
  cases hempty : entries with
  | nil => rfl
  | cons first rest =>
      rw [hempty] at h
      rw [slashNames, Path.split_ofComponents h (by simp), List.filter_eq_self]
      intro text hmem
      obtain ⟨component, hcomponent, rfl⟩ := List.mem_map.1 hmem
      simpa using (h component hcomponent).text_ne_nil

section Places

variable {place : Place}

theorem slashNames_placeText (h : ∀ name ∈ place, (Component.name name).IsEntry) :
    slashNames (placeText place) = place := by
  have hentries : ∀ component ∈ place.map Component.name, component.IsEntry := by simpa using h
  have hfront := slashNames_append_slash [] (Path.ofComponents (place.map .name))
  rw [List.nil_append, ← placeText_eq h, slashNames_ofComponents hentries] at hfront
  have hnone : slashNames [] = [] := by decide
  simpa [hnone, Component.text, Function.comp_def] using hfront

theorem getLast?_placeText (h : ∀ name ∈ place, (Component.name name).IsEntry) (hne : place ≠ []) :
    (placeText place).getLast? ≠ some '/' := by
  have hentries : ∀ component ∈ place.map Component.name, component.IsEntry := by simpa using h
  have htext : Path.ofComponents (place.map .name) ≠ [] :=
    Path.ofComponents_ne_nil hentries (by simpa using hne)
  rw [placeText_eq h, List.getLast?_cons_of_ne_nil htext]
  exact Path.getLast?_ofComponents hentries

theorem pathNames_placeText (h : ∀ name ∈ place, (Component.name name).IsEntry)
    (hne : place ≠ []) : pathNames (placeText place) = place := by
  rw [pathNames_eq, slashNames_placeText h, if_neg (getLast?_placeText h hne), List.append_nil]

theorem pathNames_placeText_slash (h : ∀ name ∈ place, (Component.name name).IsEntry) :
    pathNames (placeText place ++ ['/']) = place ++ [[]] := by
  rw [pathNames_eq, slashNames_append_slash, slashNames_placeText h, if_pos (by simp)]
  simp [slashNames, Text.split]

theorem placeText_ne_nil (place : Place) : placeText place ≠ [] := by
  obtain ⟨rest, hrest⟩ := Path.isAbsolute_iff.1 (isAbsolute_placeText place)
  simp [hrest]

theorem startOf_placeText (here place : Place) (behind : List Char) :
    startOf here (placeText place ++ behind) = [] := by
  obtain ⟨rest, hrest⟩ := Path.isAbsolute_iff.1 (isAbsolute_placeText place)
  rw [startOf, hrest]
  rfl

theorem zero_not_mem_placeText (h : ∀ name ∈ place, IsFileName name) :
    '\x00' ∉ placeText place := by
  intro hmem
  unfold placeText at hmem
  split at hmem
  · exact absurd hmem (by decide)
  · obtain ⟨name, hname, hin⟩ := List.mem_flatMap.1 hmem
    rcases List.mem_cons.1 hin with hslash | hin
    · exact absurd hslash (by decide)
    · exact (h name hname).zero hin

end Places

/-! ### Physical places -/

/-- A file or a directory is at a place, and not a link. -/
structure Node.IsPhysical (root : Node) (place : Place) : Prop where
  present : root.kind? place ≠ none
  not_link : ∀ target, root.kind? place ≠ some (.link target)

section Physical

variable {root : Node} {last : Last} {links : Nat} {place found : Place} {name : Name}
  {names rest : List Name} {target : List Char} {kind : Kind}

theorem Node.isPhysical_of_kind? (h : root.kind? place = some kind)
    (hkind : ∀ target, kind ≠ .link target) : root.IsPhysical place where
  present := by simp [h]
  not_link := by
    intro target hlink
    exact hkind target (Option.some.inj (h.symm.trans hlink))

theorem Node.isPhysical_of_directory (h : root.kind? place = some .directory) :
    root.IsPhysical place :=
  Node.isPhysical_of_kind? h (by simp)

theorem exists_get?_of_kind? (h : root.kind? place ≠ none) : ∃ node, root.get? place = some node :=
  Option.ne_none_iff_exists'.1 fun hnone => h (Node.kind?_eq_none.2 hnone)

theorem Node.IsPhysical.isFileName (h : root.IsPhysical place) (hproper : root.Proper) :
    ∀ name ∈ place, IsFileName name := by
  obtain ⟨node, hnode⟩ := exists_get?_of_kind? h.present
  have hbehind : root.get? ([] ++ place) = some node := hnode
  exact hproper.isFileName_of_mem_behind hbehind

theorem Node.kind?_directory_of_concat (h : root.kind? (place ++ [name]) = some kind) :
    root.kind? place = some .directory := by
  by_contra hplace
  rw [Node.kind?_eq_none.2 (Node.get?_append_eq_none hplace (by simp))] at h
  cases h

/-- What is there is looked up in a directory. -/
theorem isLookedUp_of_kind? (hproper : root.Proper) (h : root.kind? (place ++ [name]) = some kind)
    (hlast : last ≠ .create) (rest : List Name) :
    root.kind? place = some .directory ∧ IsLookedUp last name rest := by
  obtain ⟨node, hnode, -⟩ := Option.map_eq_some_iff.1 h
  exact ⟨Node.kind?_directory_of_concat h, (hproper.isFileName hnode).isLookedUp hlast rest⟩

theorem kind?_dropLast (h : root.kind? place = some .directory) :
    root.kind? place.dropLast = some .directory := by
  rcases List.eq_nil_or_concat' place with rfl | ⟨parent, name, rfl⟩
  · exact h
  · rw [List.dropLast_concat]
    exact Node.kind?_directory_of_concat h

theorem kind?_startOf (h : root.kind? place = some .directory) (target : List Char) :
    root.kind? (startOf place target) = some .directory := by
  unfold startOf
  split
  · exact Node.kind?_root h
  · exact h

/-- **The names of a physical place lead to it.** -/
theorem Node.IsPhysical.walk_eq (h : root.IsPhysical place) (hproper : root.Proper)
    (hlast : last ≠ .create) :
    walk root last links [] (place ++ names) = walk root last links place names := by
  rcases List.eq_nil_or_concat' place with rfl | ⟨parent, name, rfl⟩
  · rfl
  · obtain ⟨kind, hkind⟩ := Option.ne_none_iff_exists'.1 h.present
    obtain ⟨hparent, hlooked⟩ := isLookedUp_of_kind? hproper hkind hlast names
    have hdown : root.kind? ([] ++ parent) = some .directory := hparent
    have hnotLink := h.not_link
    rw [hkind] at hnotLink
    rw [List.append_assoc, walk_down hproper hlast hdown, List.nil_append, List.singleton_append,
      hlooked.walk_eq hparent, hkind]
    cases kind with
    | link target => exact absurd rfl (hnotLink target)
    | file content mode => rfl
    | directory => rfl

theorem Node.IsPhysical.walks (h : root.IsPhysical place) (hproper : root.Proper) :
    Walks root .follow links [] place place := by
  have hwalk : walk root .follow links [] (place ++ []) = walk root .follow links place [] :=
    h.walk_eq hproper (by decide)
  rw [List.append_nil] at hwalk
  rw [← walk_eq_ok, hwalk, walk]

theorem Walks.directory_of_ne_nil (h : Walks root last links place names found)
    (hne : names ≠ []) : root.kind? place = some .directory := by
  cases h with
  | here => exact absurd rfl hne
  | dot hplace | dots hplace | missing hplace | stay hplace | link hplace | enter hplace =>
      exact hplace

theorem not_walks_link (hplace : root.kind? place = some .directory)
    (hname : IsLookedUp .follow name rest)
    (hkind : root.kind? (place ++ [name]) = some (.link target)) :
    ¬ Walks root .follow 0 place (name :: rest) found := by
  rw [← walk_eq_ok, hname.walk_eq hplace, hkind]
  simp

theorem walks_link_cons (hplace : root.kind? place = some .directory)
    (hname : IsLookedUp .follow name rest)
    (hkind : root.kind? (place ++ [name]) = some (.link target)) :
    Walks root .follow (links + 1) place (name :: rest) found ↔
      Walks root .follow links (startOf place target) (pathNames target ++ rest) found := by
  rw [← walk_eq_ok, ← walk_eq_ok, hname.walk_eq hplace, hkind]
  simp

theorem walks_enter_cons (hplace : root.kind? place = some .directory)
    (hname : IsLookedUp .follow name rest) (hkind : root.kind? (place ++ [name]) = some kind)
    (hlink : ∀ target, kind ≠ .link target) :
    Walks root .follow links place (name :: rest) found ↔
      Walks root .follow links (place ++ [name]) rest found := by
  rw [← walk_eq_ok, ← walk_eq_ok, hname.walk_eq hplace, hkind]
  cases kind with
  | link target => exact absurd rfl (hlink target)
  | file content mode => rfl
  | directory => rfl

end Physical

/-! ### Questions -/

namespace Files

variable {files : Files} {place found : Place} {name : Name} {links : Nat} {names : List Name}
  {node : Node}

theorem kind?_of_get? (h : files.get? place = some node) :
    files.root.kind? place = some node.kind :=
  congrArg (Option.map Node.kind) h

/-- A name has its own text as an entry unless it is a dot, two dots or nothing. -/
theorem isEntry_name (hdot : ¬ (name = [] ∨ name = ['.'])) (hdots : name ≠ ['.', '.'])
    (hslash : '/' ∉ name) : (Component.name name).IsEntry := by
  refine ⟨?_, hslash⟩
  rw [Component.text, Path.ofStretch, if_neg hdot, if_neg hdots]

/-- **Asking for a name by its physical path gives what is there**, unless the path is too long. -/
theorem find_stay_eq_ok (hproper : files.root.Proper) (hplace : files.root.IsPhysical place)
    (hname : (Component.name name).IsEntry) :
    files.find .stay (placeText (place ++ [name])) = .ok node ↔
      Utf8.byteSize (placeText (place ++ [name])) < pathLimit ∧
        files.get? (place ++ [name]) = some node := by
  have hentries : ∀ other ∈ place ++ [name], (Component.name other).IsEntry := by
    intro other hother
    rcases List.mem_append.1 hother with hother | hother
    · exact (hplace.isFileName hproper other hother).entry
    · rwa [List.mem_singleton.1 hother]
  have hstart : startOf files.here (placeText (place ++ [name])) = [] := by
    simpa using startOf_placeText files.here (place ++ [name]) []
  have hwalks : ∀ found, Walks files.root .stay linkLimit [] (place ++ [name]) found ↔
      Walks files.root .stay linkLimit place [name] found := fun found => by
    rw [← walk_eq_ok, ← walk_eq_ok, hplace.walk_eq hproper (by decide)]
  simp only [find_eq_ok, locate_eq_ok, locateAny_eq_ok, hstart,
    pathNames_placeText hentries (by simp), hwalks]
  constructor
  · rintro ⟨found, ⟨hshort, -, -, hwalk⟩, hfound⟩
    refine ⟨hshort, ?_⟩
    cases hwalk with
    | dot _ hdot =>
        rcases hdot with rfl | rfl
        · exact absurd rfl hname.text_ne_nil
        · exact absurd rfl hname.text_ne_dot
    | dots =>
        have hstands := hname.1
        cases hstands
    | missing | stay => exact hfound
    | link _ _ _ hlast => exact absurd ⟨rfl, rfl⟩ hlast
    | enter _ _ _ _ hrest =>
        rw [walks_nil] at hrest
        rwa [← hrest]
  · rintro ⟨hshort, hnode⟩
    have hkind := kind?_of_get? hnode
    have hbehind : files.root.get? ([] ++ (place ++ [name])) = some node := hnode
    have hfile := hproper.isFileName_of_mem_behind hbehind
    exact ⟨place ++ [name], ⟨hshort, zero_not_mem_placeText hfile, placeText_ne_nil _,
      walks_stay_entry (Node.kind?_directory_of_concat hkind) (hfile name (by simp)) hnode⟩, hnode⟩

/-- A slash behind a physical path asks for a directory. -/
theorem exists_find_slash_iff (hproper : files.root.Proper) (hplace : files.root.IsPhysical place) :
    (∃ node, files.find .follow (placeText place ++ ['/']) = .ok node) ↔
      Utf8.byteSize (placeText place ++ ['/']) < pathLimit ∧
        files.root.kind? place = some .directory := by
  have hfile := hplace.isFileName hproper
  have hentries : ∀ name ∈ place, (Component.name name).IsEntry := fun name hname =>
    (hfile name hname).entry
  have hwalks : ∀ found, Walks files.root .follow linkLimit [] (place ++ [[]]) found ↔
      files.root.kind? place = some .directory ∧ found = place := fun found => by
    rw [← walk_eq_ok, hplace.walk_eq hproper (by decide), walk_eq_ok, walks_dot (Or.inl rfl)]
  simp only [find_eq_ok, locate_eq_ok, locateAny_eq_ok, startOf_placeText,
    pathNames_placeText_slash hentries, hwalks]
  constructor
  · rintro ⟨node, found, ⟨hshort, -, -, hdirectory, -⟩, -⟩
    exact ⟨hshort, hdirectory⟩
  · rintro ⟨hshort, hdirectory⟩
    obtain ⟨listable, entries, hnode⟩ := Node.kind?_eq_directory.1 hdirectory
    have hzero : '\x00' ∉ placeText place ++ ['/'] := by
      simp [zero_not_mem_placeText hfile]
    exact ⟨_, place, ⟨hshort, hzero, by simp, hdirectory, rfl⟩, hnode⟩

/-- A name that was asked for successfully is looked up in a directory. -/
theorem isLookedUp_of_find (hproper : files.root.Proper) (hplace : files.root.IsPhysical place)
    (hname : (Component.name name).IsEntry)
    (h : files.find .stay (placeText (place ++ [name])) = .ok node) (rest : List Name) :
    Utf8.byteSize (placeText (place ++ [name])) < pathLimit ∧
      files.root.kind? (place ++ [name]) = some node.kind ∧
      files.root.kind? place = some .directory ∧ IsLookedUp .follow name rest := by
  obtain ⟨hshort, hnode⟩ := (find_stay_eq_ok hproper hplace hname).1 h
  have hkind := kind?_of_get? hnode
  exact ⟨hshort, hkind, isLookedUp_of_kind? hproper hkind (by decide) rest⟩

/-! ### Tracing -/

/-- The paths that are asked for when `names` are traced from `place`: the physical path of every
name, and with a slash behind it where it has to be a directory. -/
def asked (root : Node) (links : Nat) (place : Place) (names : List Name) : List (List Char) :=
  match names with
  | [] => []
  | name :: rest =>
      if name = [] ∨ name = ['.'] then asked root links place rest
      else if name = ['.', '.'] then asked root links place.dropLast rest
      else
        placeText (place ++ [name]) ::
          match root.kind? (place ++ [name]) with
          | none => []
          | some (.link target) =>
              match links with
              | 0 => []
              | links + 1 => asked root links (startOf place target) (pathNames target ++ rest)
          | some _ =>
              (if asksDirectory rest then [placeText (place ++ [name]) ++ ['/']] else []) ++
                asked root links (place ++ [name]) rest
termination_by (links, names.length)

section Asked

variable {root : Node} {rest : List Name} {target : List Char} {kind : Kind}

theorem asked_dot (hdot : name = [] ∨ name = ['.']) :
    asked root links place (name :: rest) = asked root links place rest := by
  rw [asked, if_pos hdot]

theorem asked_dots :
    asked root links place (['.', '.'] :: rest) = asked root links place.dropLast rest := by
  rw [asked, if_neg (by decide), if_pos rfl]

theorem mem_asked (hdot : ¬ (name = [] ∨ name = ['.'])) (hdots : name ≠ ['.', '.']) :
    placeText (place ++ [name]) ∈ asked root links place (name :: rest) := by
  rw [asked, if_neg hdot, if_neg hdots]
  exact List.mem_cons_self

theorem asked_link (hdot : ¬ (name = [] ∨ name = ['.'])) (hdots : name ≠ ['.', '.'])
    (hkind : root.kind? (place ++ [name]) = some (.link target)) :
    asked root (links + 1) place (name :: rest) = placeText (place ++ [name]) ::
      asked root links (startOf place target) (pathNames target ++ rest) := by
  rw [asked, if_neg hdot, if_neg hdots, hkind]

theorem asked_enter (hdot : ¬ (name = [] ∨ name = ['.'])) (hdots : name ≠ ['.', '.'])
    (hkind : root.kind? (place ++ [name]) = some kind) (hlink : ∀ target, kind ≠ .link target) :
    asked root links place (name :: rest) = placeText (place ++ [name]) ::
      ((if asksDirectory rest then [placeText (place ++ [name]) ++ ['/']] else []) ++
        asked root links (place ++ [name]) rest) := by
  rw [asked, if_neg hdot, if_neg hdots, hkind]
  cases kind with
  | link target => exact absurd rfl (hlink target)
  | file content mode => rfl
  | directory => rfl

end Asked

theorem asksDirectory_dot {rest : List Name} (hdot : name = [] ∨ name = ['.']) :
    asksDirectory (name :: rest) = (rest.isEmpty || asksDirectory rest) := by
  have hdots : name ≠ ['.', '.'] := by rcases hdot with rfl | rfl <;> decide
  rw [asksDirectory, if_neg hdots, if_pos hdot]

/-- **Tracing comes to where a walk comes to a file, if nothing that it asks for is too long.** -/
theorem trace_eq_ok (hproper : files.root.Proper) (hplace : files.root.IsPhysical place)
    (hasks : asksDirectory names = true → files.root.kind? place = some .directory)
    (hnames : ∀ name ∈ names, '/' ∉ name) :
    files.trace links place names = .ok found ↔
      Walks files.root .follow links place names found ∧ files.root.kind? found ≠ none ∧
        ∀ text ∈ asked files.root links place names, Utf8.byteSize text < pathLimit := by
  fun_induction files.trace links place names with
  | case1 links place =>
      rw [walks_nil, Except.ok.injEq, eq_comm]
      refine (and_iff_left_of_imp ?_).symm
      rintro rfl
      exact ⟨hplace.present, by simp [asked]⟩
  | case2 links place name rest hdot ih =>
      rw [asksDirectory_dot hdot] at hasks
      refine (ih hplace (fun hrest => hasks (by simp [hrest]))
        (List.forall_mem_cons.1 hnames).2).trans ?_
      rw [walks_dot_cons hdot, asked_dot hdot, and_assoc]
      refine (and_iff_right_of_imp fun h => ?_).symm
      -- The names behind the dot ask for the directory if the dot does not.
      cases rest with
      | nil => exact hasks rfl
      | cons next rest => exact h.1.directory_of_ne_nil (List.cons_ne_nil _ _)
  | case3 links place rest hdot ih =>
      have hdirectory : files.root.kind? place = some .directory := hasks rfl
      have hout := kind?_dropLast hdirectory
      refine (ih (Node.isPhysical_of_directory hout) (fun _ => hout)
        (List.forall_mem_cons.1 hnames).2).trans ?_
      rw [walks_dots_cons, asked_dots]
      simp only [hdirectory, true_and]
  | case4 links place name rest hdot hdots fault hfault =>
      -- A walk that comes to a file finds the name, so asking for it fails for its length only.
      refine iff_of_false (fun h => by cases h) ?_
      rintro ⟨hwalks, hfound, hshort⟩
      have hentry := isEntry_name hdot hdots (hnames name List.mem_cons_self)
      obtain ⟨last, hlast⟩ := exists_get?_of_kind? hfound
      obtain ⟨node, hnode⟩ := exists_get?_of_kind? (kind?_of_walks_entry hentry hwalks hlast)
      have hanswer := (find_stay_eq_ok hproper hplace hentry).2
        ⟨hshort _ (mem_asked hdot hdots), hnode⟩
      rw [hfault] at hanswer
      cases hanswer
  | case5 place name rest hdot hdots target hlink =>
      refine iff_of_false (fun h => by cases h) ?_
      rintro ⟨hwalks, -⟩
      have hentry := isEntry_name hdot hdots (hnames name List.mem_cons_self)
      obtain ⟨-, hkind, hdirectory, hlooked⟩ := isLookedUp_of_find hproper hplace hentry hlink rest
      exact not_walks_link hdirectory hlooked hkind hwalks
  | case6 place name rest hdot hdots target hlink links ih =>
      have hentry := isEntry_name hdot hdots (hnames name List.mem_cons_self)
      obtain ⟨hshort, hkind, hdirectory, hlooked⟩ :=
        isLookedUp_of_find hproper hplace hentry hlink rest
      have hstart := kind?_startOf hdirectory target
      have hmore : ∀ name ∈ pathNames target ++ rest, '/' ∉ name := by
        intro other hother
        rcases List.mem_append.1 hother with hother | hother
        · exact not_mem_of_mem_pathNames hother
        · exact hnames other (List.mem_cons_of_mem name hother)
      refine (ih (Node.isPhysical_of_directory hstart) (fun _ => hstart) hmore).trans ?_
      rw [walks_link_cons hdirectory hlooked hkind, asked_link hdot hdots hkind,
        List.forall_mem_cons]
      simp only [hshort, true_and]
  | case7 links place name rest hdot hdots node hnotLink hfind hdemand fault hfault =>
      -- A walk that goes on from the name finds a directory there.
      refine iff_of_false (fun h => by cases h) ?_
      rintro ⟨hwalks, -, hasked⟩
      have hentry := isEntry_name hdot hdots (hnames name List.mem_cons_self)
      obtain ⟨hshort, hkind, hdirectory, hlooked⟩ :=
        isLookedUp_of_find hproper hplace hentry hfind rest
      have hlink : ∀ target, node.kind ≠ .link target := fun target htarget =>
        hnotLink target (Node.kind_eq_link.1 htarget)
      rw [walks_enter_cons hdirectory hlooked hkind hlink] at hwalks
      rw [asked_enter hdot hdots hkind hlink, if_pos hdemand] at hasked
      have hrest : rest ≠ [] := by
        rintro rfl
        cases hdemand
      obtain ⟨answer, hanswer⟩ := (exists_find_slash_iff hproper
        (Node.isPhysical_of_kind? hkind hlink)).2
          ⟨hasked _ (by simp), hwalks.directory_of_ne_nil hrest⟩
      rw [hfault] at hanswer
      cases hanswer
  | case8 links place name rest hdot hdots node hnotLink hfind hdemand answer hanswer ih =>
      have hentry := isEntry_name hdot hdots (hnames name List.mem_cons_self)
      obtain ⟨hshort, hkind, hdirectory, hlooked⟩ :=
        isLookedUp_of_find hproper hplace hentry hfind rest
      have hlink : ∀ target, node.kind ≠ .link target := fun target htarget =>
        hnotLink target (Node.kind_eq_link.1 htarget)
      have hphysical := Node.isPhysical_of_kind? hkind hlink
      obtain ⟨hslash, hentered⟩ := (exists_find_slash_iff hproper hphysical).1 ⟨answer, hanswer⟩
      refine (ih hphysical (fun _ => hentered) (List.forall_mem_cons.1 hnames).2).trans ?_
      rw [walks_enter_cons hdirectory hlooked hkind hlink, asked_enter hdot hdots hkind hlink,
        if_pos hdemand, List.forall_mem_cons, List.singleton_append, List.forall_mem_cons]
      simp only [hshort, hslash, true_and]
  | case9 links place name rest hdot hdots node hnotLink hfind hdemand ih =>
      have hentry := isEntry_name hdot hdots (hnames name List.mem_cons_self)
      obtain ⟨hshort, hkind, hdirectory, hlooked⟩ :=
        isLookedUp_of_find hproper hplace hentry hfind rest
      have hlink : ∀ target, node.kind ≠ .link target := fun target htarget =>
        hnotLink target (Node.kind_eq_link.1 htarget)
      refine (ih (Node.isPhysical_of_kind? hkind hlink) (fun h => absurd h hdemand)
        (List.forall_mem_cons.1 hnames).2).trans ?_
      rw [walks_enter_cons hdirectory hlooked hkind hlink, asked_enter hdot hdots hkind hlink,
        if_neg hdemand, List.forall_mem_cons]
      simp only [hshort, true_and, List.nil_append]

end Files

end Workbench
