/-
Where a path leads, as a relation.

A walk along names goes on in one of a few ways at each name, and each of them looks at two places
only: the directory that it has come to, and what the directory holds under the name.  `Walks` lists
these ways, and it is the walk exactly where the walk succeeds.  What holds of every walk is then
shown once for each of the ways.

A walk that follows links ends where a file can be: never at a link, and nowhere without a directory
around it.  It also ends at the same place after files have been added or written, because they take
nothing away that it has gone through.
-/
import Workbench.Files.Locate
import Workbench.Proofs.Files.Tree
import Workbench.Proofs.Path.Components
import Workbench.Proofs.Result

namespace Workbench

open Workbench.Path (Name)

/-! ### Walks -/

/-- A name that is looked up in a directory, with `rest` behind it. -/
structure IsLookedUp (last : Last) (name : Name) (rest : List Name) : Prop where
  not_dot : ¬ (name = [] ∨ name = ['.'])
  not_dots : name ≠ ['.', '.']
  creatable : ¬ (last = .create ∧ rest = [[]])
  short : Utf8.byteSize name ≤ longestName

theorem IsLookedUp.walk_eq {root : Node} {last : Last} {links : Nat} {place : Place} {name : Name}
    {rest : List Name} (h : IsLookedUp last name rest)
    (hplace : root.kind? place = some .directory) :
    walk root last links place (name :: rest) =
      match root.kind? (place ++ [name]) with
      | none => if rest = [] then .ok (place ++ [name]) else .error .notFound
      | some (.link target) =>
          if rest = [] ∧ last = .stay then .ok (place ++ [name])
          else
            match links with
            | 0 => .error .tooManyLinks
            | links + 1 => walk root last links (startOf place target) (pathNames target ++ rest)
      | some _ => walk root last links (place ++ [name]) rest := by
  obtain ⟨listable, entries, hdirectory⟩ := Node.kind?_eq_directory.1 hplace
  rw [walk, hdirectory, Node.kind?_concat hdirectory]
  dsimp only
  rw [if_neg h.not_dot, if_neg h.not_dots, if_neg h.creatable, if_neg (Nat.not_lt.2 h.short)]
  cases entries.lookup name with
  | none => rfl
  | some node => cases node <;> rfl

/-- Names lead from one place to another with at most so many links followed. -/
inductive Walks (root : Node) (last : Last) : Nat → Place → List Name → Place → Prop
  /-- There is no name left. -/
  | here {links : Nat} {place : Place} : Walks root last links place [] place
  | dot {links : Nat} {place found : Place} {name : Name} {rest : List Name}
      (hplace : root.kind? place = some .directory) (hname : name = [] ∨ name = ['.'])
      (hrest : Walks root last links place rest found) :
      Walks root last links place (name :: rest) found
  | dots {links : Nat} {place found : Place} {rest : List Name}
      (hplace : root.kind? place = some .directory)
      (hrest : Walks root last links place.dropLast rest found) :
      Walks root last links place (['.', '.'] :: rest) found
  /-- Nothing is there under the last name. -/
  | missing {links : Nat} {place : Place} {name : Name}
      (hplace : root.kind? place = some .directory) (hname : IsLookedUp last name [])
      (hnode : root.kind? (place ++ [name]) = none) :
      Walks root last links place [name] (place ++ [name])
  /-- A link under the last name is not followed. -/
  | stay {links : Nat} {place : Place} {name : Name} {target : List Char}
      (hplace : root.kind? place = some .directory) (hname : IsLookedUp last name [])
      (hnode : root.kind? (place ++ [name]) = some (.link target)) (hlast : last = .stay) :
      Walks root last links place [name] (place ++ [name])
  | link {links : Nat} {place found : Place} {name : Name} {rest : List Name} {target : List Char}
      (hplace : root.kind? place = some .directory) (hname : IsLookedUp last name rest)
      (hnode : root.kind? (place ++ [name]) = some (.link target))
      (hlast : ¬ (rest = [] ∧ last = .stay))
      (hrest : Walks root last links (startOf place target) (pathNames target ++ rest) found) :
      Walks root last (links + 1) place (name :: rest) found
  /-- A file or a directory. -/
  | enter {links : Nat} {place found : Place} {name : Name} {rest : List Name} {kind : Kind}
      (hplace : root.kind? place = some .directory) (hname : IsLookedUp last name rest)
      (hnode : root.kind? (place ++ [name]) = some kind) (hkind : ∀ target, kind ≠ .link target)
      (hrest : Walks root last links (place ++ [name]) rest found) :
      Walks root last links place (name :: rest) found

section Walks

variable {root : Node} {last : Last} {links : Nat} {place found : Place} {names : List Name}

theorem walks_of_walk (h : walk root last links place names = .ok found) :
    Walks root last links place names found := by
  fun_induction walk root last links place names with
  | case1 links place =>
      obtain rfl : place = found := by simpa using h
      exact .here
  | case2 links place name rest listable entries hdirectory hdot ih =>
      exact .dot (Node.kind?_eq_directory.2 ⟨listable, entries, hdirectory⟩) hdot (ih h)
  | case3 links place rest listable entries hdirectory hdot ih =>
      exact .dots (Node.kind?_eq_directory.2 ⟨listable, entries, hdirectory⟩) (ih h)
  | case4 | case5 | case7 | case9 | case12 | case13 => cases h
  | case6 links place name listable entries hdirectory hdot hdots hlong hlookup hcreate =>
      obtain rfl : place ++ [name] = found := by simpa using h
      refine .missing (Node.kind?_eq_directory.2 ⟨listable, entries, hdirectory⟩)
        ⟨hdot, hdots, hcreate, Nat.le_of_not_lt hlong⟩ ?_
      rw [Node.kind?_concat hdirectory, hlookup, Option.map_none]
  | case8 links place name rest listable entries hdirectory hdot hdots hcreate hlong target hlookup
      hstay =>
      obtain rfl : place ++ [name] = found := by simpa using h
      obtain ⟨rfl, hlast⟩ := hstay
      have hlink : root.kind? (place ++ [name]) = some (.link target) := by
        rw [Node.kind?_concat hdirectory, hlookup]
        rfl
      exact .stay (Node.kind?_eq_directory.2 ⟨listable, entries, hdirectory⟩)
        ⟨hdot, hdots, hcreate, Nat.le_of_not_lt hlong⟩ hlink hlast
  | case10 place name rest listable entries hdirectory hdot hdots hcreate hlong target hlookup hstay
      links ih =>
      have hlink : root.kind? (place ++ [name]) = some (.link target) := by
        rw [Node.kind?_concat hdirectory, hlookup]
        rfl
      exact .link (Node.kind?_eq_directory.2 ⟨listable, entries, hdirectory⟩)
        ⟨hdot, hdots, hcreate, Nat.le_of_not_lt hlong⟩ hlink hstay (ih h)
  | case11 links place name rest listable entries hdirectory hdot hdots hcreate hlong node hnode
      hlookup ih =>
      have hkind : root.kind? (place ++ [name]) = some node.kind := by
        rw [Node.kind?_concat hdirectory, hlookup, Option.map_some]
      exact .enter (Node.kind?_eq_directory.2 ⟨listable, entries, hdirectory⟩)
        ⟨hdot, hdots, hcreate, Nat.le_of_not_lt hlong⟩ hkind
        (fun target hlink => hnode target (Node.kind_eq_link.1 hlink)) (ih h)

theorem walk_of_walks (h : Walks root last links place names found) :
    walk root last links place names = .ok found := by
  induction h with
  | here => rw [walk]
  | dot hplace hname hrest ih =>
      obtain ⟨listable, entries, hdirectory⟩ := Node.kind?_eq_directory.1 hplace
      rw [walk, hdirectory]
      dsimp only
      rw [if_pos hname, ih]
  | dots hplace hrest ih =>
      obtain ⟨listable, entries, hdirectory⟩ := Node.kind?_eq_directory.1 hplace
      rw [walk, hdirectory]
      dsimp only
      rw [if_neg (by decide), if_pos rfl, ih]
  | missing hplace hname hnode =>
      rw [hname.walk_eq hplace, hnode]
      exact if_pos rfl
  | stay hplace hname hnode hlast =>
      rw [hname.walk_eq hplace, hnode]
      exact if_pos ⟨rfl, hlast⟩
  | link hplace hname hnode hlast hrest ih =>
      rw [hname.walk_eq hplace, hnode]
      dsimp only
      rw [if_neg hlast, ih]
  | @enter links place found name rest kind hplace hname hnode hkind hrest ih =>
      rw [hname.walk_eq hplace, hnode]
      cases kind with
      | link target => exact absurd rfl (hkind target)
      | file content mode => exact ih
      | directory => exact ih

/-- **A walk succeeds exactly along the ways that are listed.** -/
theorem walk_eq_ok :
    walk root last links place names = .ok found ↔ Walks root last links place names found :=
  ⟨walks_of_walk, walk_of_walks⟩

/-! ### Where walks end -/

/-- A file can be at a place: there is room for it, and no link. -/
structure Node.Takes (root : Node) (place : Place) : Prop where
  hasRoom : root.HasRoom place
  not_link : ∀ target, root.kind? place ≠ some (.link target)

theorem Node.takes_of_kind? {kind : Kind} (h : root.kind? place = some kind)
    (hkind : ∀ target, kind ≠ .link target) : root.Takes place := by
  obtain ⟨node, hnode, -⟩ := Option.map_eq_some_iff.1 h
  refine ⟨Node.hasRoom_of_get? hnode, fun target hlink => ?_⟩
  exact hkind target (Option.some.inj (h.symm.trans hlink))

theorem Node.takes_of_directory (h : root.kind? place = some .directory) : root.Takes place :=
  Node.takes_of_kind? h (by simp)

/-- The directory around a place. -/
theorem Node.takes_dropLast (h : root.kind? place = some .directory) :
    root.Takes place.dropLast := by
  obtain ⟨listable, entries, hdirectory⟩ := Node.kind?_eq_directory.1 h
  rcases Node.hasRoom_of_get? hdirectory with rfl | hroom
  · exact Node.takes_of_directory h
  · exact Node.takes_of_directory hroom

theorem Node.takes_startOf {target : List Char} (h : root.kind? place = some .directory) :
    root.Takes (startOf place target) := by
  unfold startOf
  by_cases habsolute : Path.isAbsolute target = true
  · rw [if_pos habsolute]
    exact Node.takes_of_directory (Node.kind?_root h)
  · rw [if_neg habsolute]
    exact Node.takes_of_directory h

theorem Walks.takes (h : Walks root last links place names found) (hlast : last ≠ .stay)
    (hstart : names = [] → root.Takes place) : root.Takes found := by
  induction h with
  | here => exact hstart rfl
  | dot hplace hname hrest ih => exact ih fun _ => Node.takes_of_directory hplace
  | dots hplace hrest ih => exact ih fun _ => Node.takes_dropLast hplace
  | missing hplace hname hnode =>
      exact ⟨Node.hasRoom_concat hplace, by simp [hnode]⟩
  | stay hplace hname hnode hstay => exact absurd hstay hlast
  | link hplace hname hnode hnotStay hrest ih => exact ih fun _ => Node.takes_startOf hplace
  | enter hplace hname hnode hkind hrest ih =>
      exact ih fun _ => Node.takes_of_kind? hnode hkind

/-! ### Files that are added -/

/-- Every directory and every link is still there, there is no other link, and nothing is gone. -/
structure Node.Grows (root grown : Node) : Prop where
  directory : ∀ place, root.kind? place = some .directory → grown.kind? place = some .directory
  link_iff : ∀ place target,
    grown.kind? place = some (.link target) ↔ root.kind? place = some (.link target)
  present : ∀ place, root.kind? place ≠ none → grown.kind? place ≠ none

theorem Node.Grows.refl (root : Node) : root.Grows root :=
  ⟨fun _ => id, fun _ _ => Iff.rfl, fun _ => id⟩

/-- A walk that ended somewhere ends there still, also if no file may be created any more. -/
theorem Walks.of_grows {grown : Node} (h : Walks root last links place names found)
    (hlast : last ≠ .stay) (hgrows : root.Grows grown) :
    Walks grown .follow links place names found := by
  have hlookedUp : ∀ {name rest}, IsLookedUp last name rest → IsLookedUp .follow name rest :=
    fun hname => ⟨hname.not_dot, hname.not_dots, by simp, hname.short⟩
  induction h with
  | here => exact .here
  | dot hplace hname hrest ih => exact .dot (hgrows.directory _ hplace) hname ih
  | dots hplace hrest ih => exact .dots (hgrows.directory _ hplace) ih
  | @missing links place name hplace hname hnode =>
      -- what was missing may be a file now
      have hdirectory := hgrows.directory _ hplace
      cases hkind : grown.kind? (place ++ [name]) with
      | none => exact .missing hdirectory (hlookedUp hname) hkind
      | some kind =>
          refine .enter hdirectory (hlookedUp hname) hkind ?_ .here
          rintro target rfl
          have hlink := (hgrows.link_iff _ target).1 hkind
          rw [hnode] at hlink
          cases hlink
  | stay hplace hname hnode hstay => exact absurd hstay hlast
  | link hplace hname hnode hnotStay hrest ih =>
      exact .link (hgrows.directory _ hplace) (hlookedUp hname) ((hgrows.link_iff _ _).2 hnode)
        (by simp) ih
  | @enter links place found name rest kind hplace hname hnode hkind hrest ih =>
      have hpresent : grown.kind? (place ++ [name]) ≠ none :=
        hgrows.present _ (by simp [hnode])
      obtain ⟨kindNow, hnow⟩ := Option.ne_none_iff_exists'.1 hpresent
      refine .enter (hgrows.directory _ hplace) (hlookedUp hname) hnow ?_ ih
      rintro target rfl
      have hlink := (hgrows.link_iff _ target).1 hnow
      rw [hnode] at hlink
      exact hkind target (Option.some.inj hlink)

end Walks

/-! ### Paths -/

/-- There is a name in every path but the empty one. -/
theorem pathNames_ne_nil {path : List Char} (h : path ≠ []) : pathNames path ≠ [] := by
  unfold pathNames
  by_cases hslash : path.getLast? = some '/'
  · simp [hslash]
  · obtain ⟨last, hlast⟩ : ∃ last, path.getLast? = some last :=
      Option.isSome_iff_exists.1 (by simpa using h)
    have hne : last ≠ '/' := by
      rintro rfl
      exact hslash hlast
    obtain ⟨piece, hpiece, hmem⟩ := Text.exists_mem_split (List.mem_of_getLast? hlast) hne
    have hkept : piece ∈ (Text.split '/' path).filter (· ≠ []) :=
      List.mem_filter.2 ⟨hpiece, by simpa using List.ne_nil_of_mem hmem⟩
    exact List.append_ne_nil_of_left_ne_nil (List.ne_nil_of_mem hkept) _

namespace Files

variable {files grown : Files} {last : Last} {path : List Char} {place : Place}

theorem locateAny_eq_ok :
    files.locateAny last path = .ok place ↔ '\x00' ∉ path ∧ path ≠ [] ∧
      Walks files.root last linkLimit (startOf files.here path) (pathNames path) place := by
  unfold locateAny
  by_cases hzero : '\x00' ∈ path
  · simp [hzero]
  · by_cases hempty : path = []
    · simp [hempty]
    · simp [hzero, hempty, walk_eq_ok]

theorem locate_eq_ok :
    files.locate last path = .ok place ↔
      Utf8.byteSize path < pathLimit ∧ files.locateAny last path = .ok place := by
  unfold locate
  by_cases hzero : '\x00' ∈ path
  · simp [hzero, locateAny_eq_ok]
  · by_cases hlong : pathLimit ≤ Utf8.byteSize path
    · simp [hzero, hlong, Nat.not_lt.2 hlong]
    · simp [hzero, hlong, Nat.lt_of_not_le hlong]

theorem find_eq_ok {node : Node} :
    files.find last path = .ok node ↔
      ∃ place, files.locate last path = .ok place ∧ files.get? place = some node := by
  unfold find
  rw [bind_eq_ok]
  refine exists_congr fun place => and_congr_right fun _ => ?_
  cases files.get? place <;> simp

/-- A path that is followed leads to where a file can be. -/
theorem takes_of_locate (h : files.locate last path = .ok place) (hlast : last ≠ .stay) :
    files.root.Takes place := by
  obtain ⟨-, hplace⟩ := locate_eq_ok.1 h
  obtain ⟨-, hempty, hwalks⟩ := locateAny_eq_ok.1 hplace
  exact hwalks.takes hlast fun hnames => absurd hnames (pathNames_ne_nil hempty)

/-- No link is found where links are followed. -/
theorem find_ne_link {node : Node} (h : files.find last path = .ok node) (hlast : last ≠ .stay)
    (target : List Char) : node ≠ .link target := by
  obtain ⟨place, hplace, hnode⟩ := find_eq_ok.1 h
  rintro rfl
  exact (takes_of_locate hplace hlast).not_link target (Node.kind?_eq_link.2 hnode)

/-- A path leads to the same place after files have been added. -/
theorem locate_of_grows (h : files.locate last path = .ok place) (hlast : last ≠ .stay)
    (hgrows : files.root.Grows grown.root) (hhere : grown.here = files.here) :
    grown.locate .follow path = .ok place := by
  obtain ⟨hshort, hplace⟩ := locate_eq_ok.1 h
  obtain ⟨hzero, hempty, hwalks⟩ := locateAny_eq_ok.1 hplace
  refine locate_eq_ok.2 ⟨hshort, locateAny_eq_ok.2 ⟨hzero, hempty, ?_⟩⟩
  rw [hhere]
  exact hwalks.of_grows hlast hgrows

end Files

end Workbench
