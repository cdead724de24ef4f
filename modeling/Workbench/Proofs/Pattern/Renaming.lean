/-
What the name of the base has to do with the search.

A part leads down unless it is a wildcard that finds the directory itself and its parent.  Parts
that lead down are only ever tried on paths below the directory that they begin at, so two
directories whose paths lead to the same nodes have the same finds, path for path.  Without links
below it, a directory shows the same nodes wherever it is, and whatever its name is: the finds carry
the new name instead of the old one and are the same otherwise.

That is so for names that stand for themselves.  Nothing separates the base from the pattern once
the two are joined, so a wildcard in the name of the base is read like one in the pattern.
-/
import Workbench.Proofs.Pattern.Descent

namespace Workbench.Pattern

open Workbench.Path (Name Component IsRoute spell)

variable {files other : Files} {base moved : List Component} {parts : List Part} {name : Name}
  {names : List Name}

/-! ### Paths that lead to the same nodes -/

section Paths

variable {path alike : List Char}
  (h : (files.find .follow path).toOption = (other.find .follow alike).toOption)

include h

theorem isDirectory_congr : files.isDirectory path = other.isDirectory alike := by
  unfold Files.isDirectory
  cases hfirst : files.find .follow path <;> cases hsecond : other.find .follow alike <;>
    simp_all [Except.toOption]

theorem isListable_congr : files.isListable path = other.isListable alike := by
  unfold Files.isListable
  cases hfirst : files.find .follow path <;> cases hsecond : other.find .follow alike <;>
    simp_all [Except.toOption]

theorem entryNames_congr : entryNames files path = entryNames other alike := by
  unfold entryNames
  cases hfirst : files.find .follow path <;> cases hsecond : other.find .follow alike <;>
    simp_all [Except.toOption]

theorem entryExists_congr
    (hstay : (files.find .stay path).toOption = (other.find .stay alike).toOption) :
    entryExists files path = entryExists other alike := by
  rw [entryExists, entryExists, Files.exists?, Files.exists?, h, hstay]

end Paths

/-- Paths below the two routes lead to the same nodes. -/
def ShowAlike (files other : Files) (base moved : List Component) : Prop :=
  ∀ names : List Name, (∀ name ∈ names, (Component.name name).IsEntry) →
    ∀ last, last = .follow ∨ last = .stay ∧ names ≠ [] →
      (files.find last (spell (base ++ names.map .name))).toOption =
        (other.find last (spell (moved ++ names.map .name))).toOption

/-- Two paths with the same names behind the two routes. -/
def Corresponds (base moved : List Component) (path alike : List Char) : Prop :=
  ∃ names : List Name, (∀ name ∈ names, (Component.name name).IsEntry) ∧
    path = spell (base ++ names.map .name) ∧ alike = spell (moved ++ names.map .name)

/-- No part finds the directory itself or its parent. -/
def LeadDown (parts : List Part) : Prop :=
  ∀ tokens, .name tokens ∈ parts →
    (∀ name, literal? tokens = some name → (Component.name name).IsEntry) ∧
    (literal? tokens = none → dotEntries tokens = [])

theorem below_names (h : IsRoute base) (hnames : ∀ name ∈ names, (Component.name name).IsEntry)
    (hname : (Component.name name).IsEntry) :
    below (spell (base ++ names.map .name)) name = spell (base ++ (names ++ [name]).map .name) := by
  have hroute : IsRoute (base ++ names.map .name) := h.append (by simpa using hnames)
  rw [List.map_append, ← List.append_assoc]
  exact below_spell hroute hname

theorem forall₂_flatMap {α β γ : Type} {R : β → γ → Prop} {as : List α} {f : α → List β}
    {g : α → List γ} (h : ∀ a ∈ as, List.Forall₂ R (f a) (g a)) :
    List.Forall₂ R (as.flatMap f) (as.flatMap g) := by
  induction as with
  | nil => exact .nil
  | cons a as ih =>
      rw [List.flatMap_cons, List.flatMap_cons]
      exact List.rel_append (h a List.mem_cons_self)
        (ih fun b hb => h b (List.mem_cons_of_mem a hb))

/-- **What parts find depends on what paths below the directory lead to.**  The induction is on the
fuel, for a directory and for an entry at once. -/
theorem forall₂_search (hbase : IsRoute base) (hmoved : IsRoute moved)
    (hproper : files.root.Proper) (halike : ShowAlike files other base moved) (fuel : Nat) :
    (∀ (parts : List Part) (names : List Name), LeadDown parts →
      (∀ name ∈ names, (Component.name name).IsEntry) → List.Forall₂ (Corresponds base moved)
        (Search.inside ⟨files, false⟩ parts (spell (base ++ names.map .name)) fuel)
        (Search.inside ⟨other, false⟩ parts (spell (moved ++ names.map .name)) fuel)) ∧
    ∀ (parts : List Part) (name : Name) (names : List Name), LeadDown parts →
      (∀ name ∈ names, (Component.name name).IsEntry) → List.Forall₂ (Corresponds base moved)
        (Search.visit ⟨files, false⟩ parts name (spell (base ++ names.map .name)) fuel)
        (Search.visit ⟨other, false⟩ parts name (spell (moved ++ names.map .name)) fuel) := by
  induction fuel with
  | zero =>
      constructor <;> intros <;> simp only [Search.inside, Search.visit] <;> exact .nil
  | succ fuel ih =>
      obtain ⟨hinside, hvisit⟩ := ih
      have hdirectory : ∀ names : List Name, (∀ name ∈ names, (Component.name name).IsEntry) →
          files.isDirectory (spell (base ++ names.map .name)) =
            other.isDirectory (spell (moved ++ names.map .name)) :=
        fun names hnames => isDirectory_congr (halike names hnames .follow (Or.inl rfl))
      -- the entries of the two directories are tried one by one
      have hentries : ∀ (parts : List Part) (names : List Name), LeadDown parts →
          (∀ name ∈ names, (Component.name name).IsEntry) → List.Forall₂ (Corresponds base moved)
            ((entryNames files (spell (base ++ names.map .name))).flatMap fun name =>
              Search.visit ⟨files, false⟩ parts name
                (below (spell (base ++ names.map .name)) name) fuel)
            ((entryNames other (spell (moved ++ names.map .name))).flatMap fun name =>
              Search.visit ⟨other, false⟩ parts name
                (below (spell (moved ++ names.map .name)) name) fuel) := by
        intro parts names hparts hnames
        rw [← entryNames_congr (halike names hnames .follow (Or.inl rfl))]
        refine forall₂_flatMap fun name hname => ?_
        have hentry := (isFileName_of_mem_entryNames hproper hname).entry
        rw [below_names hbase hnames hentry, below_names hmoved hnames hentry]
        refine hvisit parts name _ hparts ?_
        simpa [or_imp, forall_and] using ⟨hnames, hentry⟩
      constructor
      · intro parts names hparts hnames
        cases parts with
        | nil =>
            simp only [Search.inside, Search.found, Bool.false_and]
            exact .cons ⟨names, hnames, rfl, rfl⟩ .nil
        | cons part rest =>
            have hrest : LeadDown rest := fun tokens hmem =>
              hparts tokens (List.mem_cons_of_mem _ hmem)
            cases part with
            | depths =>
                rw [inside_depths, inside_depths]
                exact hentries _ names hparts hnames
            | name tokens =>
                obtain ⟨hliteral, hdots⟩ := hparts tokens List.mem_cons_self
                cases hname : literal? tokens with
                | some name =>
                    have hentry := hliteral name hname
                    have hlonger : ∀ other ∈ names ++ [name], (Component.name other).IsEntry := by
                      simpa [or_imp, forall_and] using ⟨hnames, hentry⟩
                    have hnotDots : ¬ (name = ['.'] ∨ name = ['.', '.']) := by
                      rintro (rfl | rfl) <;> exact absurd hentry (by decide)
                    rw [inside_literal hname, inside_literal hname, below_names hbase hnames hentry,
                      below_names hmoved hnames hentry, if_neg hnotDots, if_neg hnotDots,
                      entryExists_congr (halike _ hlonger .follow (Or.inl rfl))
                        (halike _ hlonger .stay (Or.inr ⟨rfl, by simp⟩))]
                    split
                    · exact hinside rest _ hrest hlonger
                    · exact .nil
                | none =>
                    have hlistable := isListable_congr (halike names hnames .follow (Or.inl rfl))
                    rw [inside_wildcard hname, inside_wildcard hname, hlistable, hdots hname,
                      List.flatMap_nil, List.flatMap_nil, List.nil_append, List.nil_append]
                    split
                    · exact hentries _ names hparts hnames
                    · exact .nil
      · intro parts name names hparts hnames
        cases parts with
        | nil =>
            rw [Search.visit, Search.visit]
            exact .nil
        | cons part rest =>
            have hrest : LeadDown rest := fun tokens hmem =>
              hparts tokens (List.mem_cons_of_mem _ hmem)
            cases part with
            | name tokens =>
                rw [Search.visit, Search.visit]
                split
                · exact hinside rest names hrest hnames
                · exact .nil
            | depths =>
                have hself : LeadDown (.depths :: afterDepths rest) := by
                  intro tokens hmem
                  rcases List.mem_cons.1 hmem with hdepths | hmem
                  · cases hdepths
                  · exact hrest tokens (mem_of_mem_afterDepths hmem)
                by_cases hlast : afterDepths rest = []
                · rw [visit_depths_last hlast, visit_depths_last hlast, hdirectory names hnames]
                  rw [hlast] at hself
                  split
                  · exact .cons ⟨names, hnames, rfl, rfl⟩ (hinside _ names hself hnames)
                  · exact .nil
                · rw [visit_depths rfl hlast, visit_depths rfl hlast, hdirectory names hnames]
                  refine List.rel_append (hvisit _ name names
                    (fun tokens hmem => hrest tokens (mem_of_mem_afterDepths hmem)) hnames) ?_
                  split
                  · exact hinside _ names hself hnames
                  · exact .nil

/-! ### Directories under different names -/

theorem toOption_eq_some {node : Node} {found : Except FileFault Node} :
    found.toOption = some node ↔ found = .ok node := by
  cases found <;> simp [Except.toOption]

/-- **A directory without links below it shows the same wherever it is.** -/
theorem showAlike_of_find {listable : Bool} {entries : List (Name × Node)} (hbase : IsRoute base)
    (hmoved : IsRoute moved) (hproper : files.root.Proper) (hother : other.root.Proper)
    (hfound : files.find .follow (spell base) = .ok (.directory listable entries))
    (hagain : other.find .follow (spell moved) = .ok (.directory listable entries))
    (hlinks : ∀ place target, (Node.directory listable entries).get? place ≠ some (.link target))
    (hshort : ∀ place node, (Node.directory listable entries).get? place = some node →
      Utf8.byteSize (spell (base ++ place.map .name)) < pathLimit ∧
      Utf8.byteSize (spell (moved ++ place.map .name)) < pathLimit) :
    ShowAlike files other base moved := by
  intro names hnames last hlast
  refine Option.ext fun node => ?_
  rw [toOption_eq_some, toOption_eq_some,
    Files.find_below hbase hproper hfound hlinks (fun place node h => (hshort place node h).1)
      hnames hlast,
    Files.find_below hmoved hother hagain hlinks (fun place node h => (hshort place node h).2)
      hnames hlast]

/-- A part with a wildcard that finds the directory itself or its parent. -/
def FindsDots (text : List Char) : Prop :=
  ∃ tokens, tokensOf text = some tokens ∧ literal? tokens = none ∧ dotEntries tokens ≠ []

theorem leadDown_of_mapM {parts : List Part}
    (hnames : ∀ name ∈ names, (Component.name name).IsEntry ∧ ¬ FindsDots name)
    (h : (names.map Component.name).mapM (fun component => partOf component.text) = some parts) :
    LeadDown parts := by
  intro tokens hmem
  obtain ⟨component, hcomponent, hpart⟩ := exists_of_mem_mapM h hmem
  obtain ⟨name, hname, rfl⟩ := List.mem_map.1 hcomponent
  obtain ⟨hentry, hdots⟩ := hnames name hname
  have htokens : tokensOf name = some tokens := tokensOf_of_partOf hpart
  refine ⟨fun literal hliteral => ?_, fun hliteral => ?_⟩
  · rw [literal?_eq_some.1 hliteral] at htokens
    rwa [← eq_of_tokensOf htokens]
  · by_contra hne
    exact hdots ⟨tokens, htokens, hliteral, hne⟩

theorem exists_tails {paths others : List (List Char)} (hbase : IsRoute base)
    (hmoved : IsRoute moved) (hne : base ≠ [] ∧ base ≠ [.root])
    (hne' : moved ≠ [] ∧ moved ≠ [.root])
    (h : List.Forall₂ (Corresponds base moved) paths others) :
    ∃ tails : List (List Char), paths = tails.map (spell base ++ ·) ∧
      others = tails.map (spell moved ++ ·) := by
  induction h with
  | nil => exact ⟨[], rfl, rfl⟩
  | cons hfirst hrest ih =>
      obtain ⟨names, hnames, rfl, rfl⟩ := hfirst
      obtain ⟨tails, rfl, rfl⟩ := ih
      have hentries : ∀ component ∈ names.map Component.name, component.IsEntry := by
        simpa using hnames
      refine ⟨Path.trail (names.map .name) :: tails, ?_, ?_⟩
      · rw [hbase.spell_append hne.1 hne.2 hentries, List.map_cons]
      · rw [hmoved.spell_append hne'.1 hne'.2 hentries, List.map_cons]

/-! ### Patterns behind a renamed base -/

/-- A relative pattern whose parts lead down. -/
structure IsDownward (pattern : List Char) : Prop where
  relative : Path.isAbsolute pattern = false
  written : '$' ∉ pattern
  inside : .parent ∉ Path.components (Path.normalize pattern)
  dotless : ∀ name, .name name ∈ Path.components (Path.normalize pattern) → ¬ FindsDots name

/-- The directory that a base leads to, with paths that are short enough below it. -/
structure Holds (files : Files) (base : List Char) (listable : Bool)
    (entries : List (Name × Node)) : Prop where
  proper : files.root.Proper
  literal : IsLiteralBase base
  found : files.find .follow (Path.normalize base) = .ok (.directory listable entries)
  short : ∀ place node, (Node.directory listable entries).get? place = some node →
    Utf8.byteSize (Path.extend (Path.normalize base) (place.map .name)) < pathLimit

theorem IsDownward.exists_names {pattern : List Char} (h : IsDownward pattern) :
    ∃ names : List Name, (∀ name ∈ names, (Component.name name).IsEntry ∧ ¬ FindsDots name) ∧
      ∀ start, Path.resolve start pattern = start ++ names := by
  obtain ⟨names, hnames, htext, hresolve⟩ := Path.exists_names h.relative h.inside
  refine ⟨names, fun name hname => ⟨hnames name hname, h.dotless name ?_⟩, hresolve⟩
  have hroute : IsRoute (names.map .name) := ⟨names.map .name, by simpa using hnames, Or.inl rfl⟩
  have hmem := List.mem_map_of_mem (f := Component.name) hname
  rwa [htext, hroute.components_spell (List.ne_nil_of_mem hmem)]

/-- The form of a directory in a parent. -/
theorem exists_form_join {parent : List Char} {form : Path.Form} (hform : Path.IsFormOf form parent)
    (hname : (Component.name name).IsEntry) :
    ∃ inner : Path.Form, Path.IsFormOf inner (Path.join parent name) ∧
      inner.components = form.components ++ [.name name] := by
  have hnames : ∀ other ∈ [name], (Component.name other).IsEntry := by simpa using hname
  exact ⟨form.append [name] hnames,
    hform.append (Path.isAbsolute_name hname) hnames (Path.resolve_name hname),
    Path.Form.components_append hnames⟩

section Held

variable {base moved : Path.Form} {path alike : List Char} {listable : Bool}
  {entries : List (Name × Node)} {renamed : Files}

theorem Holds.find_spell (h : Holds files path listable entries) (hform : Path.IsFormOf base path) :
    files.find .follow (spell base.components) = .ok (.directory listable entries) := by
  rw [← base.text_eq_spell, ← hform.text, h.found]

theorem Holds.byteSize_lt (h : Holds files path listable entries) (hform : Path.IsFormOf base path)
    (hne : base.components ≠ []) {place : Place} {node : Node}
    (hnode : (Node.directory listable entries).get? place = some node) :
    Utf8.byteSize (spell (base.components ++ place.map .name)) < pathLimit := by
  have hshort := h.short place node hnode
  rwa [hform.text, base.text_eq_spell, Path.extend_spell hne] at hshort

/-- Two bases that hold the same directory show the same. -/
theorem Holds.showAlike (hfiles : Holds files path listable entries)
    (hrenamed : Holds renamed alike listable entries) (hbase : Path.IsFormOf base path)
    (hmoved : Path.IsFormOf moved alike)
    (hne : base.components ≠ [] ∧ moved.components ≠ [])
    (hlinks : ∀ place target, (Node.directory listable entries).get? place ≠ some (.link target)) :
    ShowAlike files renamed base.components moved.components :=
  showAlike_of_find base.isRoute moved.isRoute hfiles.proper hrenamed.proper
    (hfiles.find_spell hbase) (hrenamed.find_spell hmoved) hlinks fun _ _ hnode =>
      ⟨hfiles.byteSize_lt hbase hne.1 hnode, hrenamed.byteSize_lt hmoved hne.2 hnode⟩

theorem Holds.expand_eq (h : Holds files path listable entries) (environment : Environment)
    (hform : Path.IsFormOf base path) {route : List Component}
    (hroute : base.components = route ++ [.name name]) {pattern : List Char}
    (hpattern : IsDownward pattern) (hnames : ∀ name ∈ names, (Component.name name).IsEntry)
    (hresolve : ∀ start, Path.resolve start pattern = start ++ names) :
    expand files environment pattern path =
      match (names.map Component.name).mapM fun component => partOf component.text with
      | none => []
      | some parts =>
          Search.inside ⟨files, false⟩ parts (spell base.components)
            ((routeNames route).length + 1 + 2 * (parts.length + pathLimit)) := by
  have hlength : (routeNames base.components).length = (routeNames route).length + 1 := by
    rw [hroute, routeNames_append, List.length_append]
    rfl
  have hsome : routeNames (base.components ++ names.map .name) ≠ [] := by
    refine List.ne_nil_of_length_pos ?_
    rw [routeNames_append, List.length_append, hlength]
    omega
  have hdescend := expand_descend h.literal hform (by simp [hroute]) hpattern.relative
    hpattern.written hnames hresolve environment hsome
    (Files.isDirectory_iff.2 ⟨listable, entries, h.found⟩)
  rw [hlength, hform.text, base.text_eq_spell] at hdescend
  exact hdescend

end Held

/-- **The name of a directory does not matter for what a pattern finds in it**, if it stands for
itself. -/
theorem expand_renamed {renamed : Files} {parent n m pattern : List Char} {listable : Bool}
    {entries : List (Name × Node)} (environment : Environment)
    (hn : (Component.name n).IsEntry) (hm : (Component.name m).IsEntry)
    (hfiles : Holds files (Path.join parent n) listable entries)
    (hrenamed : Holds renamed (Path.join parent m) listable entries)
    (hlinks : ∀ place target, (Node.directory listable entries).get? place ≠ some (.link target))
    (hpattern : IsDownward pattern) :
    ∃ tails : List (List Char),
      expand files environment pattern (Path.join parent n) =
        tails.map (Path.normalize (Path.join parent n) ++ ·) ∧
      expand renamed environment pattern (Path.join parent m) =
        tails.map (Path.normalize (Path.join parent m) ++ ·) := by
  obtain ⟨form, hform⟩ := Path.exists_isFormOf parent
  obtain ⟨base, hbase, hbaseRoute⟩ := exists_form_join hform hn
  obtain ⟨moved, hmoved, hmovedRoute⟩ := exists_form_join hform hm
  obtain ⟨names, hnames, hresolve⟩ := hpattern.exists_names
  have hentries := fun name hname => (hnames name hname).1
  rw [hfiles.expand_eq environment hbase hbaseRoute hpattern hentries hresolve,
    hrenamed.expand_eq environment hmoved hmovedRoute hpattern hentries hresolve,
    hbase.text, hmoved.text, base.text_eq_spell, moved.text_eq_spell]
  cases hparts : (names.map Component.name).mapM fun component => partOf component.text with
  | none => exact ⟨[], rfl, rfl⟩
  | some parts =>
      have halike := hfiles.showAlike hrenamed hbase hmoved
        ⟨by simp [hbaseRoute], by simp [hmovedRoute]⟩ hlinks
      obtain ⟨hinside, -⟩ := forall₂_search base.isRoute moved.isRoute hfiles.proper halike
        ((routeNames form.components).length + 1 + 2 * (parts.length + pathLimit))
      have hfinds := hinside parts [] (leadDown_of_mapM hnames hparts) (by simp)
      rw [List.map_nil, List.append_nil, List.append_nil] at hfinds
      refine exists_tails base.isRoute moved.isRoute ?_ ?_ hfinds
      · rw [hbaseRoute]
        constructor
        · simp
        · simp [List.append_eq_singleton_iff]
      · rw [hmovedRoute]
        constructor
        · simp
        · simp [List.append_eq_singleton_iff]

/-- A directory with two files. -/
def twoFiles : List (Name × Node) :=
  [("a.txt".toList, .file [] 0o644), ("list".toList, .file [] 0o644)]

/-- The directory with the two files under `/data`, by a name. -/
def underData (name : Name) : Files where
  root := .directory true [("data".toList, .directory true [(name, .directory true twoFiles)])]
  here := []

theorem proper_underData (hname : IsFileName name) : (underData name).root.Proper := by
  have htwoFiles : (Node.directory true twoFiles).Proper := by
    refine .directory (by decide) (by decide) ?_
    simp only [twoFiles, List.forall_mem_cons, List.not_mem_nil, false_implies, implies_true,
      and_true]
    exact ⟨.file, .file⟩
  have hdata : (Node.directory true [(name, .directory true twoFiles)]).Proper :=
    .directory (by simpa using hname) (by simp) (by simpa using htwoFiles)
  have hlabel : IsFileName "data".toList := by decide
  exact .directory (by simpa using hlabel) (by simp) (by simpa using hdata)

theorem get?_twoFiles {place : Place} {node : Node}
    (h : (Node.directory true twoFiles).get? place = some node) :
    (∀ target, node ≠ .link target) ∧ place ∈ [[], ["a.txt".toList], ["list".toList]] := by
  cases place with
  | nil =>
      obtain rfl : Node.directory true twoFiles = node := by simpa using h
      simp
  | cons name rest =>
      obtain ⟨_, entries, child, hentries, hchild, hbelow⟩ := Node.get?_cons_eq_some.1 h
      obtain ⟨rfl, rfl⟩ := Node.directory.inj hentries
      have hmem := mem_of_lookup hchild
      have hfile : child = .file [] 0o644 ∧ (name = "a.txt".toList ∨ name = "list".toList) := by
        simpa [twoFiles, or_and_right, and_comm] using hmem
      obtain ⟨rfl, hname⟩ := hfile
      cases rest with
      | cons next rest => simp [Node.get?] at hbelow
      | nil =>
          obtain rfl : Node.file [] 0o644 = node := by simpa using hbelow
          rcases hname with rfl | rfl <;> simp

theorem holds_underData {path : List Char} (hname : IsFileName name) (hliteral : IsLiteralBase path)
    (hfound : (underData name).find .follow (Path.normalize path) = .ok (.directory true twoFiles))
    (hshort : ∀ place ∈ [[], ["a.txt".toList], ["list".toList]],
      Utf8.byteSize (Path.extend (Path.normalize path) (place.map .name)) < pathLimit) :
    Holds (underData name) path true twoFiles :=
  ⟨proper_underData hname, hliteral, hfound,
    fun place _ hnode => hshort place (get?_twoFiles hnode).2⟩

theorem expand_renamed_underData :
    ∃ tails : List (List Char),
      expand (underData "old".toList) (.ofPairs []) "*.txt".toList
          (Path.join "/data".toList "old".toList) =
        tails.map (Path.normalize (Path.join "/data".toList "old".toList) ++ ·) ∧
      expand (underData "new".toList) (.ofPairs []) "*.txt".toList
          (Path.join "/data".toList "new".toList) =
        tails.map (Path.normalize (Path.join "/data".toList "new".toList) ++ ·) := by
  have hold : Holds (underData "old".toList) (Path.join "/data".toList "old".toList) true
      twoFiles :=
    holds_underData (by decide) ⟨by simp [Path.join, Path.isAbsolute], by decide⟩ (by cbv)
      (by decide)
  have hnew : Holds (underData "new".toList) (Path.join "/data".toList "new".toList) true
      twoFiles :=
    holds_underData (by decide) ⟨by simp [Path.join, Path.isAbsolute], by decide⟩ (by cbv)
      (by decide)
  have hpattern : IsDownward "*.txt".toList := by
    refine ⟨by decide, by decide, by decide, fun name hmem => ?_⟩
    have hname : Path.components (Path.normalize "*.txt".toList) = [.name "*.txt".toList] := by
      decide
    rw [hname, List.mem_singleton] at hmem
    obtain rfl := Component.name.inj hmem
    rintro ⟨tokens, htokens, -, hdots⟩
    exact hdots (dotEntries_eq_nil htokens (by decide))
  exact expand_renamed (.ofPairs []) (by decide) (by decide) hold hnew
    (fun place target hlink => (get?_twoFiles hlink).1 target rfl) hpattern

/-- **A wildcard in the name of a directory is not taken for what it is**: its files are not found,
and files of another directory are found instead. -/
theorem expand_misreads_brackets :
    expand (underData "[x]".toList) (.ofPairs []) "*.txt".toList "/data/[x]".toList = [] ∧
      expand (underData "x".toList) (.ofPairs []) "*.txt".toList "/data/[x]".toList =
        ["/data/x/a.txt".toList] := by
  constructor <;> cbv

end Workbench.Pattern
