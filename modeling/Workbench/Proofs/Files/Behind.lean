/-
Paths with the current directory in front of them.

A path can say more than the names that it leads along: there may be dots among them, and slashes
that have nothing between them.  The walk meets a name for each of these, but such a name only asks
for a directory, and so does the name behind it; so it can be left out unless it is the last.  What
remains are the entries of the path.

The current directory is a place, and a place is reached from the root through directories only.  So
a relative path leads where the absolute one leads that has the names of the current directory in
front of the entries.  That path has another length, so the two can differ where one is too long.

A slash at the end of a path is one of the names that only ask for a directory, and the last: with it
the path leads to the same directory, or to nothing.
-/
import Workbench.Executable
import Workbench.Proofs.Files.Physical
import Workbench.Proofs.Files.Route

namespace Workbench

open Workbench.Path (Name Component IsRoute spell stretchEntries)

/-! ### Walks with dots in them -/

section Walks

variable {root : Node} {last : Last} {links : Nat} {place : Place} {name : Name}
  {names other front behind : List Name}

/-- A name that leads somewhere: neither a dot nor what stands between two slashes. -/
def leadsOn (name : Name) : Bool :=
  !(name == [] || name == ['.'])

/-- A dot asks for a directory, and so does the name behind it. -/
theorem walk_dot (hname : name = [] ∨ name = ['.']) (hnames : names ≠ []) :
    walk root last links place (name :: names) = walk root last links place names := by
  cases names with
  | nil => exact absurd rfl hnames
  | cons next rest =>
      cases hnode : root.get? place with
      | none => rw [walk, hnode, walk, hnode]
      | some node =>
          cases node with
          | directory listable entries =>
              rw [walk, hnode]
              exact if_pos hname
          | file content mode => rw [walk, hnode, walk, hnode]
          | link target => rw [walk, hnode, walk, hnode]

/-- What stands behind a name matters only for where the walk goes on. -/
theorem walk_cons_congr (hlast : last ≠ .create) (hnames : names ≠ []) (hother : other ≠ [])
    (hon : ∀ place, walk root last links place names = walk root last links place other)
    (hlink : ∀ left < links, ∀ place front, walk root last left place (front ++ names) =
      walk root last left place (front ++ other)) :
    walk root last links place (name :: names) = walk root last links place (name :: other) := by
  rw [walk]
  conv => rhs; rw [walk]
  simp only [hlast, hnames, hother, hon, false_and]
  cases links with
  | zero => rfl
  | succ links => simp only [hlink links (Nat.lt_succ_self links)]

/-- **Dots do not change where a longer walk leads.** -/
theorem walk_filter_leadsOn (hlast : last ≠ .create) (hbehind : behind ≠ []) :
    walk root last links place (front.filter leadsOn ++ behind) =
      walk root last links place (front ++ behind) := by
  have hne : ∀ names : List Name, names ++ behind ≠ [] := fun names =>
    List.append_ne_nil_of_right_ne_nil names hbehind
  induction links using Nat.strongRecOn generalizing place front with
  | _ links ih =>
      induction front generalizing place with
      | nil => rfl
      | cons name front ihFront =>
          by_cases hname : name = [] ∨ name = ['.']
          · have hdropped : leadsOn name = false := by
              rcases hname with rfl | rfl <;> rfl
            rw [List.filter_cons_of_neg (by simp [hdropped]), ihFront, List.cons_append,
              walk_dot hname (hne front)]
          · have hkept : leadsOn name = true := by
              simpa [leadsOn] using hname
            rw [List.filter_cons_of_pos hkept, List.cons_append, List.cons_append]
            refine walk_cons_congr hlast (hne _) (hne _) (fun _ => ihFront) ?_
            intro left hleft place others
            -- Behind a link the dots of its target stand in front.
            have hfiltered := @ih left hleft place (others ++ front.filter leadsOn)
            have hwhole := @ih left hleft place (others ++ front)
            rw [List.filter_append, List.filter_filter] at hfiltered
            rw [List.filter_append] at hwhole
            simp only [Bool.and_self] at hfiltered
            rw [← List.append_assoc, ← List.append_assoc, ← hfiltered, hwhole]

theorem kind?_of_below {rest : Place} (h : root.kind? (place ++ rest) = some .directory) :
    root.kind? place = some .directory := by
  obtain ⟨listable, entries, hdirectory⟩ := Node.kind?_eq_directory.1 h
  rw [Node.get?_append] at hdirectory
  obtain ⟨node, hnode, hrest⟩ := Option.bind_eq_some_iff.1 hdirectory
  rw [Node.kind?, hnode]
  cases rest with
  | nil =>
      obtain rfl : node = .directory listable entries := by simpa using hrest
      rfl
  | cons name rest =>
      obtain ⟨inner, children, child, rfl, -, -⟩ := Node.get?_cons_eq_some.1 hrest
      rfl

/-- **A walk goes down through directories.** -/
theorem walk_down (hproper : root.Proper) (hlast : last ≠ .create)
    (hplace : root.kind? (place ++ behind) = some .directory) :
    walk root last links place (behind ++ names) =
      walk root last links (place ++ behind) names := by
  induction behind generalizing place with
  | nil => rw [List.nil_append, List.append_nil]
  | cons name rest ih =>
      have hcut : place ++ name :: rest = (place ++ [name]) ++ rest := by simp
      rw [hcut] at hplace ⊢
      have hentered : root.kind? (place ++ [name]) = some .directory := kind?_of_below hplace
      obtain ⟨listable, entries, hdirectory⟩ := Node.kind?_eq_directory.1 hentered
      have hname : IsFileName name := hproper.isFileName hdirectory
      rw [List.cons_append, (hname.isLookedUp hlast _).walk_eq (kind?_of_below hentered), hentered,
        ← ih hplace]

end Walks

/-! ### Paths behind a directory -/

section Paths

variable {base name path : List Char} {c : Char}

theorem map_text_filterMap_ofStretch (stretches : List (List Char)) :
    (stretches.filterMap Path.ofStretch).map Component.text = stretches.filter leadsOn := by
  induction stretches with
  | nil => rfl
  | cons stretch rest ih =>
      cases hstands : Path.ofStretch stretch with
      | none =>
          have hdropped : leadsOn stretch = false := by
            unfold Path.ofStretch at hstands
            split at hstands
            · rename_i hdot
              rcases hdot with rfl | rfl <;> rfl
            · split at hstands <;> cases hstands
          rw [List.filterMap_cons_none hstands, ih, List.filter_cons_of_neg (by simp [hdropped])]
      | some component =>
          have hkept : leadsOn stretch = true := by
            unfold Path.ofStretch at hstands
            split at hstands
            · cases hstands
            · rename_i hdot
              simpa [leadsOn] using hdot
          rw [List.filterMap_cons_some hstands, List.map_cons, ih, List.filter_cons_of_pos hkept,
            Path.text_of_ofStretch hstands]

/-- The names that lead on in a path are the texts of its entries. -/
theorem filter_leadsOn_split (path : List Char) :
    ((Text.split '/' path).filter (· ≠ [])).filter leadsOn =
      (stretchEntries path).map Component.text := by
  rw [stretchEntries, map_text_filterMap_ofStretch, List.filter_filter]
  refine List.filter_congr fun stretch _ => ?_
  cases stretch <;> simp [leadsOn]

theorem mem_iff_mem_stretchEntries (hc : c ≠ '/' ∧ c ≠ '.') :
    c ∈ path ↔ ∃ component ∈ stretchEntries path, c ∈ component.text := by
  constructor
  · intro hmem
    obtain ⟨piece, hpiece, hin⟩ := Text.exists_mem_split hmem hc.1
    have hkept : leadsOn piece = true := by
      have hdot : piece ≠ ['.'] := by
        rintro rfl
        exact hc.2 (List.mem_singleton.1 hin)
      simp [leadsOn, List.ne_nil_of_mem hin, hdot]
    have htext : piece ∈ (stretchEntries path).map Component.text := by
      rw [stretchEntries, map_text_filterMap_ofStretch]
      exact List.mem_filter.2 ⟨hpiece, hkept⟩
    obtain ⟨component, hcomponent, rfl⟩ := List.mem_map.1 htext
    exact ⟨component, hcomponent, hin⟩
  · rintro ⟨component, hmem, hin⟩
    obtain ⟨stretch, hstretch, hstands⟩ := List.mem_filterMap.1 hmem
    rw [Path.text_of_ofStretch hstands] at hin
    exact Text.mem_of_mem_split hstretch hin

theorem mem_join_iff (hpath : Path.isAbsolute path = false) (hc : c ≠ '/') :
    c ∈ Path.join base path ↔ c ∈ base ∨ c ∈ path := by
  rw [Path.join, hpath, if_neg Bool.false_ne_true]
  split
  · exact List.mem_append
  · rw [List.mem_append, List.mem_cons]
    simp [hc]

theorem pathNames_join (hbase : base ≠ []) (hname : name ≠ []) (hslash : '/' ∉ name) :
    pathNames (Path.join base name) = (Text.split '/' base).filter (· ≠ []) ++ [name] := by
  have hend : ∀ front : List Char, pathNames (front ++ '/' :: name) =
      (Text.split '/' front).filter (· ≠ []) ++ [name] := by
    intro front
    have hlast : (front ++ '/' :: name).getLast? ≠ some '/' := by
      rw [List.getLast?_append_of_ne_nil _ (List.cons_ne_nil _ _), List.getLast?_cons_of_ne_nil hname]
      exact fun h => hslash (List.mem_of_getLast? h)
    rw [pathNames, if_neg hlast, Path.split_append_slash, Text.split_eq_splitOn '/' name,
      List.splitOn_eq_singleton hslash, List.filter_append, List.append_nil,
      List.filter_cons_of_pos (by simpa using hname), List.filter_nil]
  rw [Path.join, Path.isAbsolute_of_not_mem hslash, if_neg Bool.false_ne_true]
  by_cases hlast : base.getLast? = some '/'
  · obtain ⟨front, rfl⟩ := List.getLast?_eq_some_iff.1 hlast
    rw [if_pos (Or.inr hlast), List.append_assoc, List.singleton_append, hend,
      Path.split_append_slash, List.filter_append]
    simp [Text.split]
  · rw [if_neg (by simp [hbase, hlast]), hend]

theorem join_ne_nil (hbase : base ≠ []) (hslash : '/' ∉ name) : Path.join base name ≠ [] := by
  rw [Path.join, Path.isAbsolute_of_not_mem hslash, if_neg Bool.false_ne_true]
  split <;> exact List.append_ne_nil_of_left_ne_nil hbase _

theorem startOf_join (hbase : base ≠ []) (hslash : '/' ∉ name) (here : Place) :
    startOf here (Path.join base name) = startOf here base := by
  rw [startOf, startOf, Path.join, Path.isAbsolute_of_not_mem hslash, if_neg Bool.false_ne_true]
  split <;> rw [Path.isAbsolute_append hbase]

end Paths

namespace Files

variable {files : Files} {directory name : List Char}

/-- A name behind a directory is walked to along the entries of the directory. -/
theorem locateAny_join (hdirectory : directory ≠ []) (hname : name ≠ []) (hslash : '/' ∉ name)
    (hzero : '\x00' ∉ Path.join directory name) :
    files.locateAny .follow (Path.join directory name) =
      walk files.root .follow linkLimit (startOf files.here directory)
        ((stretchEntries directory).map Component.text ++ [name]) := by
  rw [locateAny, if_neg (by simpa using hzero), if_neg (join_ne_nil hdirectory hslash),
    pathNames_join hdirectory hname hslash, startOf_join hdirectory hslash,
    ← filter_leadsOn_split, walk_filter_leadsOn (by decide) (List.cons_ne_nil _ _)]

/-! ### A slash behind a path -/

section Slash

variable {last : Last} {path : List Char} {place : Place} {node : Node}

end Slash

/-! ### The current directory in front -/

section Here

variable (hproper : files.root.Proper) (hhere : files.root.kind? files.here = some .directory)

include hproper hhere

theorem isFileName_here : ∀ name ∈ files.here, IsFileName name := by
  obtain ⟨listable, entries, hdirectory⟩ := Node.kind?_eq_directory.1 hhere
  have hbehind : files.root.get? ([] ++ files.here) = some (.directory listable entries) := hdirectory
  exact hproper.isFileName_of_mem_behind hbehind

theorem isEntry_here : ∀ component ∈ files.here.map Component.name, component.IsEntry := by
  intro component hmem
  obtain ⟨name, hname, rfl⟩ := List.mem_map.1 hmem
  exact (isFileName_here hproper hhere name hname).entry

/-- A relative path is put behind the current directory entry by entry. -/
theorem behindHere_eq_spell (hrelative : Path.isAbsolute directory = false) :
    files.behindHere directory =
      spell (.root :: (files.here.map .name ++ stretchEntries directory)) := by
  have hnames : ∀ name ∈ files.here, (Component.name name).IsEntry := fun name hname =>
    (isFileName_here hproper hhere name hname).entry
  rw [behindHere, hrelative, if_neg Bool.false_ne_true, placeText_eq_spell hnames,
    Path.extend_spell (List.cons_ne_nil _ _), List.cons_append]
  show spell (_ :: (_ ++ Path.course directory)) = _
  rw [Path.course_of_relative hrelative]

theorem stretchEntries_behindHere (hrelative : Path.isAbsolute directory = false) :
    Path.isAbsolute (files.behindHere directory) = true ∧
      stretchEntries (files.behindHere directory) =
        files.here.map .name ++ stretchEntries directory := by
  have hroute : IsRoute (.root :: (files.here.map .name ++ stretchEntries directory)) := by
    refine ⟨_, ?_, Or.inr rfl⟩
    intro component hmem
    rcases List.mem_append.1 hmem with hplace | hentry
    · exact isEntry_here hproper hhere component hplace
    · exact Path.isEntry_of_mem_stretchEntries hentry
  have habsolute : Path.isAbsolute (files.behindHere directory) = true := by
    rw [behindHere_eq_spell hproper hhere hrelative, hroute.isAbsolute_spell]
    rfl
  refine ⟨habsolute, ?_⟩
  have hcourse := Path.course_eq (files.behindHere directory)
  rw [habsolute, if_pos rfl, Path.course, behindHere_eq_spell hproper hhere hrelative,
    hroute.components_spell (List.cons_ne_nil _ _)] at hcourse
  rw [behindHere_eq_spell hproper hhere hrelative]
  exact (List.cons.inj hcourse).2.symm

theorem zero_mem_behindHere (hrelative : Path.isAbsolute directory = false) :
    '\x00' ∈ files.behindHere directory ↔ '\x00' ∈ directory := by
  obtain ⟨-, hbehind⟩ := stretchEntries_behindHere hproper hhere hrelative
  rw [mem_iff_mem_stretchEntries (by decide), mem_iff_mem_stretchEntries (by decide), hbehind]
  constructor
  · rintro ⟨component, hmem, hzero⟩
    rcases List.mem_append.1 hmem with hplace | hentry
    · -- No directory has a name with a zero in it.
      obtain ⟨name, hname, rfl⟩ := List.mem_map.1 hplace
      exact absurd hzero (isFileName_here hproper hhere name hname).zero
    · exact ⟨component, hentry, hzero⟩
  · rintro ⟨component, hmem, hzero⟩
    exact ⟨component, List.mem_append_right _ hmem, hzero⟩

/-- **A path leads to the same file with the current directory in front of it**, if neither path is
too long. -/
theorem locate_join_behindHere (hdirectory : directory ≠ []) (hname : name ≠ []) (hslash : '/' ∉ name)
    (hshort : Utf8.byteSize (Path.join directory name) < pathLimit)
    (hbehind : Utf8.byteSize (Path.join (files.behindHere directory) name) < pathLimit) :
    files.locate .follow (Path.join (files.behindHere directory) name) =
      files.locate .follow (Path.join directory name) := by
  by_cases habsolute : Path.isAbsolute directory = true
  · rw [behindHere, if_pos habsolute]
  · have hrelative := Bool.eq_false_iff.2 habsolute
    obtain ⟨hroot, hentries⟩ := stretchEntries_behindHere hproper hhere hrelative
    have hfront : files.behindHere directory ≠ [] := by
      intro hnil
      rw [hnil] at hroot
      cases hroot
    have hzeros : '\x00' ∈ Path.join (files.behindHere directory) name ↔
        '\x00' ∈ Path.join directory name := by
      rw [mem_join_iff (Path.isAbsolute_of_not_mem hslash) (by decide),
        mem_join_iff (Path.isAbsolute_of_not_mem hslash) (by decide),
        zero_mem_behindHere hproper hhere hrelative]
    by_cases hzero : '\x00' ∈ Path.join directory name
    · rw [locate, if_pos (by simpa using hzeros.2 hzero), locate, if_pos (by simpa using hzero)]
    · have hzeroBehind := fun h => hzero (hzeros.1 h)
      rw [locate, if_neg (by simpa using hzeroBehind), if_neg (Nat.not_le.2 hbehind), locate,
        if_neg (by simpa using hzero), if_neg (Nat.not_le.2 hshort),
        locateAny_join hfront hname hslash hzeroBehind, locateAny_join hdirectory hname hslash hzero,
        hentries, startOf, if_pos hroot, startOf, if_neg habsolute, List.map_append, List.append_assoc,
        List.map_map]
      have hnames : files.here.map (Component.text ∘ Component.name) = files.here :=
        List.map_id files.here
      rw [hnames]
      exact walk_down hproper (by decide) hhere

theorem isExecutable_behindHere (hdirectory : directory ≠ []) (hname : name ≠ [])
    (hslash : '/' ∉ name) (hshort : Utf8.byteSize (Path.join directory name) < pathLimit)
    (hbehind : Utf8.byteSize (Path.join (files.behindHere directory) name) < pathLimit) :
    files.isExecutable (Path.join (files.behindHere directory) name) =
      files.isExecutable (Path.join directory name) := by
  rw [isExecutable, find, isExecutable, find,
    locate_join_behindHere hproper hhere hdirectory hname hslash hshort hbehind]

end Here

end Files

end Workbench
