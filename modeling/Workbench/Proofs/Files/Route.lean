/-
What routes lead to.

A walk can be cut between two of its names: it has come to a directory there, with some of its links
left, and goes on from it.  So a path that leads to a directory begins with paths that lead to
directories, and what a longer path leads to is what the directory holds under the names that are
left.  Without links among them these are looked up one below the other.

In a proper tree a directory holds each name once, and only names that a path can spell.
-/
import Workbench.Proofs.Files.Append
import Workbench.Proofs.Files.Walk
import Workbench.Proofs.Path.Join

namespace Workbench

open Workbench.Path (Name Component IsRoute spell)

/-! ### Proper trees -/

/-- A name that an entry can have. -/
structure IsFileName (name : Name) : Prop where
  entry : (Component.name name).IsEntry
  zero : '\x00' ∉ name
  short : Utf8.byteSize name ≤ longestName

instance (name : Name) : Decidable (IsFileName name) :=
  decidable_of_iff ((Component.name name).IsEntry ∧ '\x00' ∉ name ∧
      Utf8.byteSize name ≤ longestName)
    ⟨fun h => ⟨h.1, h.2.1, h.2.2⟩, fun h => ⟨h.entry, h.zero, h.short⟩⟩

/-- One character again and again is a name, if it is not one that means something in a path. -/
theorem IsFileName.replicate {c : Char} {times : Nat} (hc : c ≠ '/' ∧ c ≠ '.' ∧ c ≠ '\x00')
    (htimes : times ≠ 0) (hshort : times * c.utf8Size ≤ longestName) :
    IsFileName (List.replicate times c) := by
  have hmem : ∀ other, c ≠ other → other ∉ List.replicate times c := fun other hne hother =>
    hne (List.eq_of_mem_replicate hother).symm
  have hdot : ∀ more, List.replicate times c ≠ '.' :: more := fun more heq =>
    hmem '.' hc.2.1 (heq ▸ List.mem_cons_self)
  refine ⟨⟨?_, hmem '/' hc.1⟩, hmem _ hc.2.2, ?_⟩
  · have hnil : List.replicate times c ≠ [] := by simpa using htimes
    rw [Component.text, Path.ofStretch, if_neg (not_or.2 ⟨hnil, hdot _⟩), if_neg (hdot _)]
  · rwa [Utf8.byteSize_replicate]

/-- A tree whose directories hold proper names, each of them once. -/
inductive Node.Proper : Node → Prop
  | file {content : List UInt8} {mode : Nat} : Proper (.file content mode)
  | link {target : List Char} : Proper (.link target)
  | directory {entries : List (Name × Node)} (hnames : ∀ entry ∈ entries, IsFileName entry.1)
      (hdistinct : (entries.map Prod.fst).Nodup) (hnodes : ∀ entry ∈ entries, Proper entry.2) :
      Proper (.directory listable entries)

theorem mem_of_lookup {entries : List (Name × Node)} {name : Name} {node : Node}
    (h : entries.lookup name = some node) : (name, node) ∈ entries := by
  obtain ⟨before, behind, rfl, -⟩ := List.lookup_eq_some_iff.1 h
  simp

theorem lookup_ne_none {entries : List (Name × Node)} {name : Name} :
    entries.lookup name ≠ none ↔ name ∈ entries.map Prod.fst := by
  rw [← Option.isSome_iff_ne_none, List.lookup_isSome_iff]
  constructor
  · rintro ⟨entry, hentry, hname⟩
    exact List.mem_map.2 ⟨entry, hentry, (beq_iff_eq.1 hname).symm⟩
  · intro h
    obtain ⟨entry, hentry, rfl⟩ := List.mem_map.1 h
    exact ⟨entry, hentry, beq_self_eq_true _⟩

theorem Node.Proper.get? {root node : Node} {place : Place} (h : root.Proper)
    (hnode : root.get? place = some node) : node.Proper := by
  induction place generalizing root with
  | nil =>
      obtain rfl : root = node := by simpa using hnode
      exact h
  | cons name rest ih =>
      obtain ⟨listable, entries, child, rfl, hchild, hbelow⟩ := Node.get?_cons_eq_some.1 hnode
      cases h with
      | directory hnames hdistinct hnodes => exact ih (hnodes _ (mem_of_lookup hchild)) hbelow

theorem Node.Proper.isFileName {root node : Node} {place : Place} {name : Name} (h : root.Proper)
    (hnode : root.get? (place ++ [name]) = some node) : IsFileName name := by
  rw [Node.get?_append] at hnode
  obtain ⟨around, haround, hname⟩ := Option.bind_eq_some_iff.1 hnode
  obtain ⟨listable, entries, child, rfl, hchild, -⟩ := Node.get?_cons_eq_some.1 hname
  cases h.get? haround with
  | directory hnames hdistinct hnodes => exact hnames _ (mem_of_lookup hchild)

theorem Node.Proper.isFileName_of_mem_behind {root node : Node} {place behind : Place}
    (h : root.Proper) (hnode : root.get? (place ++ behind) = some node) :
    ∀ name ∈ behind, IsFileName name := by
  intro name hmem
  obtain ⟨front, rest, rfl⟩ := List.append_of_mem hmem
  have hcut : place ++ (front ++ name :: rest) = (place ++ front ++ [name]) ++ rest := by simp
  rw [hcut, Node.get?_append] at hnode
  obtain ⟨child, hchild, -⟩ := Option.bind_eq_some_iff.1 hnode
  exact h.isFileName hchild

/-! ### Cutting walks -/

section Walks

variable {root : Node} {last : Last} {links : Nat} {place between found : Place}
  {front behind : List Name}

theorem walks_nil : Walks root last links place [] found ↔ found = place := by
  constructor
  · rintro ⟨⟩
    rfl
  · rintro rfl
    exact .here

/-- A dot asks for a directory and leads nowhere else. -/
theorem walks_dot_cons {name : Name} {rest : List Name} (hname : name = [] ∨ name = ['.']) :
    Walks root last links place (name :: rest) found ↔
      root.kind? place = some .directory ∧ Walks root last links place rest found := by
  constructor
  · intro h
    cases h with
    | dot hplace _ hrest => exact ⟨hplace, hrest⟩
    | dots hplace hrest => simp at hname
    | missing _ hlooked | stay _ hlooked | link _ hlooked | enter _ hlooked =>
        exact absurd hname hlooked.not_dot
  · rintro ⟨hplace, hrest⟩
    exact .dot hplace hname hrest

theorem walks_dot {name : Name} (hname : name = [] ∨ name = ['.']) :
    Walks root last links place [name] found ↔
      root.kind? place = some .directory ∧ found = place := by
  rw [walks_dot_cons hname, walks_nil]

/-- Two dots ask for a directory and lead out of it. -/
theorem walks_dots_cons {rest : List Name} :
    Walks root last links place (['.', '.'] :: rest) found ↔
      root.kind? place = some .directory ∧ Walks root last links place.dropLast rest found := by
  constructor
  · intro h
    cases h with
    | dot _ hname => simp at hname
    | dots hplace hrest => exact ⟨hplace, hrest⟩
    | missing _ hlooked | stay _ hlooked | link _ hlooked | enter _ hlooked =>
        exact absurd rfl hlooked.not_dots
  · rintro ⟨hplace, hrest⟩
    exact .dots hplace hrest

/-- **A walk comes to a directory wherever it goes on.** -/
theorem Walks.exists_between (h : Walks root last links place (front ++ behind) found)
    (hne : behind ≠ []) :
    ∃ between, Walks root .follow links place front between ∧
      root.kind? between = some .directory := by
  have hlookedUp : ∀ {name rest more}, IsLookedUp last name more → IsLookedUp .follow name rest :=
    fun hname => ⟨hname.not_dot, hname.not_dots, by simp, hname.short⟩
  generalize hnames : front ++ behind = names at h
  induction h generalizing front with
  | here => exact absurd (List.append_eq_nil_iff.1 hnames).2 hne
  | @dot links place found name rest hplace hname hrest ih =>
      cases front with
      | nil => exact ⟨place, .here, hplace⟩
      | cons first front =>
          obtain ⟨rfl, hfront⟩ := List.cons.inj hnames
          obtain ⟨between, hwalks, hdirectory⟩ := ih hfront
          exact ⟨between, .dot hplace hname hwalks, hdirectory⟩
  | @dots links place found rest hplace hrest ih =>
      cases front with
      | nil => exact ⟨place, .here, hplace⟩
      | cons first front =>
          obtain ⟨rfl, hfront⟩ := List.cons.inj hnames
          obtain ⟨between, hwalks, hdirectory⟩ := ih hfront
          exact ⟨between, .dots hplace hwalks, hdirectory⟩
  | @missing links place name hplace hname hnode =>
      cases front with
      | nil => exact ⟨place, .here, hplace⟩
      | cons first front => exact absurd (List.append_eq_nil_iff.1 (List.cons.inj hnames).2).2 hne
  | @stay links place name target hplace hname hnode hlast =>
      cases front with
      | nil => exact ⟨place, .here, hplace⟩
      | cons first front => exact absurd (List.append_eq_nil_iff.1 (List.cons.inj hnames).2).2 hne
  | @link links place found name rest target hplace hname hnode hlast hrest ih =>
      cases front with
      | nil => exact ⟨place, .here, hplace⟩
      | cons first front =>
          obtain ⟨rfl, hfront⟩ := List.cons.inj hnames
          obtain ⟨between, hwalks, hdirectory⟩ := @ih (pathNames target ++ front)
            (by rw [List.append_assoc]; exact congrArg _ hfront)
          exact ⟨between, .link hplace (hlookedUp hname) hnode (by simp) hwalks, hdirectory⟩
  | @enter links place found name rest kind hplace hname hnode hkind hrest ih =>
      cases front with
      | nil => exact ⟨place, .here, hplace⟩
      | cons first front =>
          obtain ⟨rfl, hfront⟩ := List.cons.inj hnames
          obtain ⟨between, hwalks, hdirectory⟩ := ih hfront
          exact ⟨between, .enter hplace (hlookedUp hname) hnode hkind hwalks, hdirectory⟩

/-- **A walk goes on from the directory it has come to**, with the links that are left. -/
theorem Walks.exists_continue (h : Walks root .follow links place front between)
    (hbetween : root.kind? between = some .directory) :
    ∃ left, ∀ last names, last ≠ .create → names ≠ [] →
      walk root last links place (front ++ names) = walk root last left between names := by
  have hlookedUp : ∀ {last name rest more}, last ≠ .create → IsLookedUp .follow name more →
      IsLookedUp last name rest :=
    fun hlast hname => ⟨hname.not_dot, hname.not_dots, fun h => hlast h.1, hname.short⟩
  induction h with
  | here => exact ⟨_, fun _ _ _ _ => rfl⟩
  | @dot links place found name rest hplace hname hrest ih =>
      obtain ⟨left, hleft⟩ := ih hbetween
      obtain ⟨listable, entries, hdirectory⟩ := Node.kind?_eq_directory.1 hplace
      refine ⟨left, fun last names hlast hne => ?_⟩
      rw [List.cons_append, walk, hdirectory, ← hleft last names hlast hne]
      exact if_pos hname
  | @dots links place found rest hplace hrest ih =>
      obtain ⟨left, hleft⟩ := ih hbetween
      obtain ⟨listable, entries, hdirectory⟩ := Node.kind?_eq_directory.1 hplace
      refine ⟨left, fun last names hlast hne => ?_⟩
      rw [List.cons_append, walk, hdirectory, ← hleft last names hlast hne]
      exact (if_neg (by decide)).trans (if_pos rfl)
  | missing hplace hname hnode =>
      rw [hnode] at hbetween
      cases hbetween
  | stay hplace hname hnode hlast => cases hlast
  | @link links place found name rest target hplace hname hnode hnotStay hrest ih =>
      obtain ⟨left, hleft⟩ := ih hbetween
      refine ⟨left, fun last names hlast hne => ?_⟩
      rw [List.cons_append, (hlookedUp hlast hname).walk_eq hplace, hnode,
        ← hleft last names hlast hne, List.append_assoc]
      exact if_neg (by simp [hne])
  | @enter links place found name rest kind hplace hname hnode hkind hrest ih =>
      obtain ⟨left, hleft⟩ := ih hbetween
      refine ⟨left, fun last names hlast hne => ?_⟩
      rw [List.cons_append, (hlookedUp hlast hname).walk_eq hplace, hnode,
        ← hleft last names hlast hne]
      cases kind with
      | link target => exact absurd rfl (hkind target)
      | file content mode => rfl
      | directory => rfl

/-- Something is found only under names that are there. -/
theorem kind?_of_walks_entry {name : Name} {rest : List Name} {node : Node}
    (hname : (Component.name name).IsEntry)
    (h : Walks root last links place (name :: rest) found) (hfound : root.get? found = some node) :
    root.kind? (place ++ [name]) ≠ none := by
  intro hnone
  cases h with
  | dot _ hdot =>
      rcases hdot with rfl | rfl
      · exact hname.text_ne_nil rfl
      · exact hname.text_ne_dot rfl
  | dots =>
      have hstands := hname.1
      cases hstands
  | missing =>
      rw [Node.kind?_eq_none.1 hnone] at hfound
      cases hfound
  | stay _ _ hkind | link _ _ hkind | enter _ _ hkind =>
      rw [hnone] at hkind
      cases hkind

theorem IsFileName.isLookedUp {name : Name} (h : IsFileName name) (hlast : last ≠ .create)
    (rest : List Name) : IsLookedUp last name rest where
  not_dot := by
    rintro (rfl | rfl)
    · exact h.entry.text_ne_nil rfl
    · exact h.entry.text_ne_dot rfl
  not_dots := by
    rintro rfl
    cases h.entry.1
  creatable := fun hcreate => hlast hcreate.1
  short := h.short

/-- An entry is found under its name, a link as such if it is not followed. -/
theorem walks_stay_entry {name : Name} {node : Node} (hplace : root.kind? place = some .directory)
    (hname : IsFileName name) (hnode : root.get? (place ++ [name]) = some node) :
    Walks root .stay links place [name] (place ++ [name]) := by
  have hkind : root.kind? (place ++ [name]) = some node.kind := by rw [Node.kind?, hnode]; rfl
  cases node with
  | link target => exact .stay hplace (hname.isLookedUp (by decide) []) hkind rfl
  | file content mode =>
      exact .enter hplace (hname.isLookedUp (by decide) []) hkind (fun _ => by simp [Node.kind])
        .here
  | directory listable entries =>
      exact .enter hplace (hname.isLookedUp (by decide) []) hkind (fun _ => by simp [Node.kind])
        .here

/-- Where there are no links, a walk goes down. -/
theorem exists_walks_iff {names : List Name} {node : Node} (hproper : root.Proper)
    (hlast : last ≠ .create)
    (hlinks : ∀ rest target, root.get? (place ++ rest) ≠ some (.link target))
    (hnames : ∀ name ∈ names, (Component.name name).IsEntry) :
    (∃ found, Walks root last links place names found ∧ root.get? found = some node) ↔
      root.get? (place ++ names) = some node := by
  induction names generalizing place with
  | nil => simp [walks_nil]
  | cons name rest ih =>
      obtain ⟨hname, hrest⟩ := List.forall_mem_cons.1 hnames
      have hcut : place ++ name :: rest = (place ++ [name]) ++ rest := by simp
      have hnoLink : ∀ target, root.kind? (place ++ [name]) ≠ some (.link target) :=
        fun target hkind => hlinks [name] target (Node.kind?_eq_link.1 hkind)
      have hbelow := @ih (place ++ [name])
        (fun rest target => by simpa using hlinks (name :: rest) target) hrest
      rw [hcut, ← hbelow]
      constructor
      · rintro ⟨found, hwalks, hfound⟩
        cases hwalks with
        | dot _ hdot =>
            rcases hdot with rfl | rfl
            · exact absurd rfl hname.text_ne_nil
            · exact absurd rfl hname.text_ne_dot
        | dots =>
            have hstands := hname.1
            cases hstands
        | missing _ _ hnode =>
            rw [Node.kind?_eq_none.1 hnode] at hfound
            cases hfound
        | stay _ _ hkind | link _ _ hkind => exact absurd hkind (hnoLink _)
        | enter _ _ _ _ hwalks => exact ⟨found, hwalks, hfound⟩
      · rintro hexists
        have hget := hbelow.1 hexists
        obtain ⟨found, hwalks, hfound⟩ := hexists
        have hentry := hget
        rw [Node.get?_append] at hentry
        obtain ⟨child, hchild, -⟩ := Option.bind_eq_some_iff.1 hentry
        have hplace : root.kind? place = some .directory := by
          by_contra hkind
          rw [Node.get?_append_eq_none hkind (by simp)] at hchild
          cases hchild
        have hkind : root.kind? (place ++ [name]) = some child.kind := by
          rw [Node.kind?, hchild]
          rfl
        exact ⟨found, .enter hplace ((hproper.isFileName hchild).isLookedUp hlast rest) hkind
          (fun target htarget => hnoLink target (htarget ▸ hkind)) hwalks, hfound⟩

end Walks

/-! ### Walks along routes -/

/-- The names that a walk along a route goes by. -/
def routeNames (route : List Component) : List Name :=
  (route.filter (· ≠ .root)).map Component.text

/-- Where a walk along a route begins. -/
def routeStart (here : Place) (route : List Component) : Place :=
  if route.head? = some .root then [] else here

section Names

variable {route entries : List Component}

theorem routeNames_append (route more : List Component) :
    routeNames (route ++ more) = routeNames route ++ routeNames more := by
  simp [routeNames]

theorem routeNames_of_entries (h : ∀ component ∈ entries, component.IsEntry) :
    routeNames entries = entries.map Component.text := by
  have hkept : entries.filter (· ≠ .root) = entries := by
    rw [List.filter_eq_self]
    intro component hmem
    simpa using (h component hmem).ne_root
  rw [routeNames, hkept]

theorem routeNames_names (names : List Name) : routeNames (names.map .name) = names := by
  simp [routeNames, List.filter_map, Component.text, Function.comp_def]

theorem pathNames_ofComponents (h : ∀ component ∈ entries, component.IsEntry)
    (hne : entries ≠ []) : pathNames (Path.ofComponents entries) = entries.map Component.text := by
  have hkept : (entries.map Component.text).filter (· ≠ []) = entries.map Component.text := by
    rw [List.filter_eq_self]
    intro text hmem
    obtain ⟨component, hcomponent, rfl⟩ := List.mem_map.1 hmem
    simpa using (h component hcomponent).text_ne_nil
  rw [pathNames, Path.split_ofComponents h hne, hkept, if_neg (Path.getLast?_ofComponents h),
    List.append_nil]

/-- The path of a route has the names of the route, if there are any. -/
theorem pathNames_spell (h : IsRoute route) (hnames : routeNames route ≠ []) :
    pathNames (spell route) = routeNames route := by
  obtain ⟨entries, hentries, rfl | rfl⟩ := h
  · rw [routeNames_of_entries hentries] at hnames ⊢
    have hne : route ≠ [] := by simpa using hnames
    rw [Path.spell_of_ne_nil hne, pathNames_ofComponents hentries hne]
  · have hroot : routeNames (.root :: entries) = entries.map Component.text :=
      routeNames_of_entries hentries
    rw [hroot] at hnames ⊢
    have hne : entries ≠ [] := by simpa using hnames
    have htext : Path.ofComponents entries ≠ [] := Path.ofComponents_ne_nil hentries hne
    rw [Path.spell_root_cons hentries, ← pathNames_ofComponents hentries hne, pathNames, pathNames,
      Text.split, if_pos rfl, List.getLast?_cons_of_ne_nil htext]
    rfl

/-- Without names a route is the root or nothing, and its path asks for the directory there. -/
theorem exists_pathNames_spell (h : IsRoute route) (hnames : routeNames route = []) :
    ∃ name, pathNames (spell route) = [name] ∧ (name = [] ∨ name = ['.']) := by
  obtain ⟨entries, hentries, rfl | rfl⟩ := h
  · rw [routeNames_of_entries hentries] at hnames
    obtain rfl : route = [] := by simpa using hnames
    exact ⟨['.'], by decide, Or.inr rfl⟩
  · have hroot : routeNames (.root :: entries) = entries.map Component.text :=
      routeNames_of_entries hentries
    rw [hroot] at hnames
    obtain rfl : entries = [] := by simpa using hnames
    exact ⟨[], by decide, Or.inl rfl⟩

theorem placeText_eq {place : Place} (h : ∀ name ∈ place, (Component.name name).IsEntry) :
    placeText place = '/' :: Path.ofComponents (place.map .name) := by
  have hentries : ∀ component ∈ place.map Component.name, component.IsEntry := by simpa using h
  cases place with
  | nil => rfl
  | cons name rest =>
      rw [List.map_cons] at hentries ⊢
      rw [Path.ofComponents_cons hentries, Path.trail, List.flatMap_map]
      rfl

theorem placeText_eq_spell {place : Place} (h : ∀ name ∈ place, (Component.name name).IsEntry) :
    placeText place = spell (.root :: place.map .name) := by
  rw [Path.spell_root_cons (by simpa using h), placeText_eq h]

theorem startOf_spell (h : IsRoute route) (here : Place) :
    startOf here (spell route) = routeStart here route := by
  rw [startOf, routeStart, h.isAbsolute_spell]
  simp only [beq_iff_eq]

theorem routeStart_append (hentries : ∀ component ∈ entries, component.IsEntry) (here : Place) :
    routeStart here (route ++ entries) = routeStart here route := by
  cases route with
  | cons first rest => rfl
  | nil =>
      cases entries with
      | nil => rfl
      | cons first rest =>
          have hfirst := (hentries first (by simp)).ne_root
          simp [routeStart, hfirst]

/-- What is in the path of a route is in longer paths too, dots and slashes apart. -/
theorem mem_spell_append {c : Char} (h : IsRoute route)
    (hentries : ∀ component ∈ entries, component.IsEntry) (hmem : c ∈ spell route)
    (hc : c ≠ '.' ∧ c ≠ '/') : c ∈ spell (route ++ entries) := by
  by_cases hne : route = []
  · rw [hne] at hmem
    exact absurd (List.mem_singleton.1 hmem) hc.1
  · by_cases hroot : route = [.root]
    · rw [hroot] at hmem
      exact absurd (List.mem_singleton.1 hmem) hc.2
    · rw [h.spell_append hne hroot hentries]
      exact List.mem_append_left _ hmem

theorem byteSize_pos {text : List Char} (h : text ≠ []) : 1 ≤ Utf8.byteSize text := by
  cases text with
  | nil => exact absurd rfl h
  | cons c text =>
      have hc := c.utf8Size_pos
      rw [Utf8.byteSize]
      omega

theorem byteSize_spell_le (h : IsRoute route)
    (hentries : ∀ component ∈ entries, component.IsEntry) :
    Utf8.byteSize (spell route) ≤ Utf8.byteSize (spell (route ++ entries)) := by
  have hlonger := byteSize_pos (h.append hentries).spell_ne_nil
  by_cases hne : route = []
  · rw [hne] at hlonger ⊢
    exact hlonger
  · by_cases hroot : route = [.root]
    · rw [hroot] at hlonger ⊢
      exact hlonger
    · rw [h.spell_append hne hroot hentries, Utf8.byteSize_append]
      omega

theorem mem_or_mem_of_mem_spell {c : Char} (h : IsRoute route)
    (hentries : ∀ component ∈ entries, component.IsEntry) (hmem : c ∈ spell (route ++ entries)) :
    c ∈ spell route ∨ c = '/' ∨ ∃ component ∈ entries, c ∈ component.text := by
  have htrail : c ∈ Path.trail entries → c = '/' ∨ ∃ component ∈ entries, c ∈ component.text := by
    intro hc
    obtain ⟨component, hcomponent, hc⟩ := List.mem_flatMap.1 hc
    rcases List.mem_cons.1 hc with hslash | htext
    · exact Or.inl hslash
    · exact Or.inr ⟨component, hcomponent, htext⟩
  have hprinted : c ∈ Path.ofComponents entries →
      c = '/' ∨ ∃ component ∈ entries, c ∈ component.text := by
    intro hc
    cases entries with
    | nil => cases hc
    | cons first rest =>
        -- the first entry has no slash in front of it
        rw [Path.ofComponents_cons hentries] at hc
        refine htrail (List.mem_cons_of_mem '/' ?_)
        simpa [Path.trail] using hc
  by_cases hne : route = []
  · rw [hne, List.nil_append] at hmem
    by_cases hempty : entries = []
    · rw [hne, ← hempty]
      exact Or.inl hmem
    · rw [Path.spell_of_ne_nil hempty] at hmem
      exact Or.inr (hprinted hmem)
  · by_cases hroot : route = [.root]
    · rw [hroot, List.singleton_append, Path.spell_root_cons hentries] at hmem
      rcases List.mem_cons.1 hmem with hslash | hmem
      · exact Or.inr (Or.inl hslash)
      · exact Or.inr (hprinted hmem)
    · rw [h.spell_append hne hroot hentries] at hmem
      rcases List.mem_append.1 hmem with hmem | hmem
      · exact Or.inl hmem
      · exact Or.inr (htrail hmem)

end Names

namespace Files

variable {files : Files} {route more : List Component} {listable : Bool}
  {entries : List (Name × Node)} {place : Place} {last : Last} {node : Node}

/-- A route leads to a directory if a walk along its names does. -/
theorem find_spell_directory (h : IsRoute route) :
    files.find .follow (spell route) = .ok (.directory listable entries) ↔
      '\x00' ∉ spell route ∧ Utf8.byteSize (spell route) < pathLimit ∧
      ∃ place, Walks files.root .follow linkLimit (routeStart files.here route) (routeNames route)
        place ∧ files.get? place = some (.directory listable entries) := by
  have hwalks : (∃ place, Walks files.root .follow linkLimit (startOf files.here (spell route))
        (pathNames (spell route)) place ∧ files.get? place = some (.directory listable entries)) ↔
      ∃ place, Walks files.root .follow linkLimit (routeStart files.here route) (routeNames route)
        place ∧ files.get? place = some (.directory listable entries) := by
    rw [startOf_spell h]
    by_cases hnames : routeNames route = []
    · -- the path has a name for no name of the route: a dot, or nothing behind its slash
      obtain ⟨name, hname, hdot⟩ := exists_pathNames_spell h hnames
      rw [hname, hnames]
      refine exists_congr fun place => and_congr_left fun hplace => ?_
      rw [walks_dot hdot, walks_nil]
      refine and_iff_right_of_imp ?_
      rintro rfl
      exact Node.kind?_eq_directory.2 ⟨_, entries, hplace⟩
    · rw [pathNames_spell h hnames]
  simp only [find_eq_ok, locate_eq_ok, locateAny_eq_ok]
  rw [← hwalks]
  constructor
  · rintro ⟨place, ⟨hshort, hzero, -, hplace⟩, hnode⟩
    exact ⟨hzero, hshort, place, hplace, hnode⟩
  · rintro ⟨hzero, hshort, place, hplace, hnode⟩
    exact ⟨place, ⟨hshort, hzero, h.spell_ne_nil, hplace⟩, hnode⟩

theorem isDirectory_spell (h : IsRoute route) :
    files.isDirectory (spell route) = true ↔
      '\x00' ∉ spell route ∧ Utf8.byteSize (spell route) < pathLimit ∧
      ∃ place, Walks files.root .follow linkLimit (routeStart files.here route) (routeNames route)
        place ∧ files.root.kind? place = some .directory := by
  rw [isDirectory_iff]
  simp only [find_spell_directory h, Node.kind?_eq_directory]
  constructor
  · rintro ⟨listable, entries, hzero, hshort, place, hplace, hnode⟩
    exact ⟨hzero, hshort, place, hplace, listable, entries, hnode⟩
  · rintro ⟨hzero, hshort, place, hplace, listable, entries, hnode⟩
    exact ⟨listable, entries, hzero, hshort, place, hplace, hnode⟩

/-- **What a path to a directory begins with leads to a directory.** -/
theorem isDirectory_of_append (h : IsRoute route) (hmore : ∀ component ∈ more, component.IsEntry)
    (hdirectory : files.isDirectory (spell (route ++ more)) = true) :
    files.isDirectory (spell route) = true := by
  by_cases hempty : more = []
  · rwa [hempty, List.append_nil] at hdirectory
  · obtain ⟨hzero, hshort, place, hwalks, -⟩ := (isDirectory_spell (h.append hmore)).1 hdirectory
    rw [routeNames_append, routeNames_of_entries hmore, routeStart_append hmore] at hwalks
    have hne : more.map Component.text ≠ [] := by simpa using hempty
    obtain ⟨between, hbetween, hkind⟩ := hwalks.exists_between hne
    refine (isDirectory_spell h).2 ⟨fun hmem => hzero ?_, ?_, between, hbetween, hkind⟩
    · exact mem_spell_append h hmore hmem (by decide)
    · exact Nat.lt_of_le_of_lt (byteSize_spell_le h hmore) hshort

/-! ### Entries -/

/-- What is found behind a directory is looked up in it. -/
theorem exists_walk_behind (h : IsRoute route)
    (hfound : files.find .follow (spell route) = .ok (.directory listable entries)) :
    ∃ place left, files.get? place = some (.directory listable entries) ∧
      ∀ last more, last ≠ .create → (∀ component ∈ more, component.IsEntry) → more ≠ [] →
        '\x00' ∉ spell (route ++ more) → Utf8.byteSize (spell (route ++ more)) < pathLimit →
          files.locate last (spell (route ++ more)) =
            walk files.root last left place (more.map Component.text) := by
  obtain ⟨-, -, place, hwalks, hplace⟩ := (find_spell_directory h).1 hfound
  obtain ⟨left, hleft⟩ := hwalks.exists_continue (Node.kind?_eq_directory.2 ⟨_, entries, hplace⟩)
  refine ⟨place, left, hplace, fun last more hlast hmore hempty hzero hshort => ?_⟩
  have hroute := h.append hmore
  have hnames : routeNames (route ++ more) = routeNames route ++ more.map Component.text := by
    rw [routeNames_append, routeNames_of_entries hmore]
  have hne : more.map Component.text ≠ [] := by simpa using hempty
  have hpath : pathNames (spell (route ++ more)) = routeNames route ++ more.map Component.text := by
    rw [← hnames]
    exact pathNames_spell hroute (by simp [hnames, hempty])
  rw [← hleft last _ hlast hne, locate, if_neg (by simpa using hzero), if_neg (by omega), locateAny,
    if_neg (by simpa using hzero), if_neg hroute.spell_ne_nil, hpath, startOf_spell hroute,
    routeStart_append hmore]

/-- **A path behind a directory leads to an entry, or to a link under its name, exactly if the
directory has an entry of that name**, unless the path is too long. -/
theorem exists_entry_iff {name : Name} (h : IsRoute route) (hproper : files.root.Proper)
    (hfound : files.find .follow (spell route) = .ok (.directory listable entries))
    (hname : (Component.name name).IsEntry)
    (hshort : Utf8.byteSize (spell (route ++ [.name name])) < pathLimit) :
    (∃ last node, last ≠ .create ∧ files.find last (spell (route ++ [.name name])) = .ok node) ↔
      name ∈ entries.map Prod.fst := by
  have hentry : ∀ component ∈ [Component.name name], component.IsEntry := by simpa using hname
  obtain ⟨place, left, hplace, hleft⟩ := exists_walk_behind h hfound
  rw [← lookup_ne_none]
  constructor
  · rintro ⟨last, node, hlast, hnode⟩
    obtain ⟨found, hlocated, hget⟩ := find_eq_ok.1 hnode
    obtain ⟨-, hany⟩ := locate_eq_ok.1 hlocated
    obtain ⟨hzero, -, -⟩ := locateAny_eq_ok.1 hany
    rw [hleft last _ hlast hentry (by simp) hzero hshort] at hlocated
    have hkind := kind?_of_walks_entry hname (walks_of_walk hlocated) hget
    rw [Node.kind?_concat hplace] at hkind
    simpa using hkind
  · intro hlookup
    obtain ⟨node, hnode⟩ := Option.ne_none_iff_exists'.1 hlookup
    have hget : files.get? (place ++ [name]) = some node := by
      rw [get?, Node.get?_concat hplace, hnode]
    have hfile : IsFileName name := hproper.isFileName hget
    have hzero : '\x00' ∉ spell (route ++ [.name name]) := by
      intro hmem
      rcases mem_or_mem_of_mem_spell h hentry hmem with hroute | hslash | ⟨component, hin, htext⟩
      · exact ((find_spell_directory h).1 hfound).1 hroute
      · exact absurd hslash (by decide)
      · obtain rfl := List.mem_singleton.1 hin
        exact hfile.zero htext
    refine ⟨.stay, node, by decide, find_eq_ok.2 ⟨place ++ [name], ?_, hget⟩⟩
    rw [hleft .stay _ (by decide) hentry (by simp) hzero hshort]
    exact walk_of_walks (walks_stay_entry (Node.kind?_eq_directory.2 ⟨_, entries, hplace⟩) hfile hget)

/-- **Where there are no links, names are looked up one below the other.** -/
theorem find_below {names : List Name} (h : IsRoute route) (hproper : files.root.Proper)
    (hfound : files.find .follow (spell route) = .ok (.directory listable entries))
    (hlinks : ∀ place target, (Node.directory listable entries).get? place ≠ some (.link target))
    (hshort : ∀ place node, (Node.directory listable entries).get? place = some node →
      Utf8.byteSize (spell (route ++ place.map .name)) < pathLimit)
    (hnames : ∀ name ∈ names, (Component.name name).IsEntry)
    (hlast : last = .follow ∨ last = .stay ∧ names ≠ []) :
    files.find last (spell (route ++ names.map .name)) = .ok node ↔
      (Node.directory listable entries).get? names = some node := by
  by_cases hempty : names = []
  · obtain rfl : last = .follow := hlast.resolve_right fun h => h.2 hempty
    rw [hempty, List.map_nil, List.append_nil, hfound, Node.get?_nil]
    simp
  · obtain ⟨place, left, hplace, hleft⟩ := exists_walk_behind h hfound
    have hbelow : ∀ rest,
        files.get? (place ++ rest) = (Node.directory listable entries).get? rest := by
      intro rest
      rw [get?, Node.get?_append, show files.root.get? place = _ from hplace]
      rfl
    have hcreate : last ≠ .create := by rcases hlast with rfl | ⟨rfl, -⟩ <;> decide
    have hentries : ∀ component ∈ names.map Component.name, component.IsEntry := by
      simpa using hnames
    have hwalks : (∃ found, walk files.root last left place names = .ok found ∧
        files.get? found = some node) ↔ (Node.directory listable entries).get? names = some node := by
      rw [← hbelow]
      simp only [walk_eq_ok]
      refine exists_walks_iff hproper hcreate (fun rest target => ?_) hnames
      rw [show files.root.get? _ = _ from hbelow rest]
      exact hlinks rest target
    have htexts : (names.map Component.name).map Component.text = names := by
      simp [Component.text, Function.comp_def]
    rw [← hwalks, find_eq_ok]
    refine exists_congr fun found => and_congr_left fun hnode => ?_
    constructor
    · intro hlocated
      obtain ⟨hsize, hany⟩ := locate_eq_ok.1 hlocated
      obtain ⟨hzero, -, -⟩ := locateAny_eq_ok.1 hany
      rwa [hleft last _ hcreate hentries (by simpa using hempty) hzero hsize, htexts] at hlocated
    · intro hwalk
      have hget := hwalks.1 ⟨found, hwalk, hnode⟩
      have hfile := hproper.isFileName_of_mem_behind (hbelow names ▸ hget)
      have hzero : '\x00' ∉ spell (route ++ names.map .name) := by
        intro hmem
        rcases mem_or_mem_of_mem_spell h hentries hmem with
          hroute | hslash | ⟨component, hin, htext⟩
        · exact ((find_spell_directory h).1 hfound).1 hroute
        · exact absurd hslash (by decide)
        · obtain ⟨name, hname, rfl⟩ := List.mem_map.1 hin
          exact (hfile name hname).zero htext
      rwa [hleft last _ hcreate hentries (by simpa using hempty) hzero (hshort _ _ hget), htexts]

end Files

end Workbench
