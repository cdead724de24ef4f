/-
Going down through directories.

The path of a route is searched part by part, so the parts in front that have no wildcards lead to
the path that they spell, if a directory is there: it then begins with paths to directories only.
What is left to be said about a pattern is what the parts behind find in that directory.

The entries of a directory are listed by their names, in the order of the characters, and in a
proper tree each of them once.
-/
import Workbench.Pattern.Search
import Workbench.Proofs.Files.Route
import Workbench.Proofs.Pattern.Matching
import Workbench.Proofs.Variables

namespace Workbench.Pattern

open Workbench.Path (Name Component IsRoute spell)

variable {files : Files} {path : List Char} {name : Name} {entries : List (Name × Node)}

/-! ### The names in a directory -/

theorem nameBefore_iff {a b : Name} : nameBefore a b = true ↔ ¬ b < a := by
  rw [nameBefore, Bool.not_eq_true', List.lex_eq_false_iff_ge, List.not_lt]

theorem entryNames_eq (h : files.find .follow path = .ok (.directory true entries)) :
    entryNames files path = (entries.map Prod.fst).mergeSort nameBefore := by
  rw [entryNames, h]

theorem exists_of_mem_entryNames (h : name ∈ entryNames files path) :
    ∃ entries, files.find .follow path = .ok (.directory true entries) := by
  unfold entryNames at h
  split at h
  · exact ⟨_, ‹_›⟩
  · cases h

/-- What may not be listed shows no names. -/
theorem entryNames_of_not_listable (h : files.isListable path = false) :
    entryNames files path = [] := by
  refine List.eq_nil_iff_forall_not_mem.2 fun name hmem => ?_
  rw [Files.isListable_iff.2 (exists_of_mem_entryNames hmem)] at h
  cases h

theorem mem_entryNames (h : files.find .follow path = .ok (.directory true entries)) :
    name ∈ entryNames files path ↔ name ∈ entries.map Prod.fst := by
  rw [entryNames_eq h, List.mem_mergeSort]

/-- Different names are in strictly ascending order when they are sorted. -/
theorem pairwise_mergeSort_names {names : List Name} (h : names.Nodup) :
    (names.mergeSort nameBefore).Pairwise (· < ·) := by
  have htrans : ∀ a b c, nameBefore a b = true → nameBefore b c = true →
      nameBefore a c = true := by
    intro a b c hab hbc
    rw [nameBefore_iff, List.not_lt] at *
    exact List.le_trans hab hbc
  have htotal : ∀ a b, (nameBefore a b || nameBefore b a) = true := by
    intro a b
    rw [Bool.or_eq_true, nameBefore_iff, nameBefore_iff, List.not_lt, List.not_lt]
    exact List.le_total a b
  have hsorted := List.pairwise_mergeSort htrans htotal names
  have hdistinct : (names.mergeSort nameBefore).Nodup :=
    (List.mergeSort_perm names nameBefore).nodup_iff.2 h
  refine (hsorted.and hdistinct).imp fun {a b} h => ?_
  obtain ⟨hle, hne⟩ := h
  rw [nameBefore_iff, List.not_lt] at hle
  exact (List.le_iff_lt_or_eq.1 hle).resolve_right hne

theorem proper_of_find {last : Last} {node : Node} (hproper : files.root.Proper)
    (h : files.find last path = .ok node) : node.Proper := by
  obtain ⟨place, -, hnode⟩ := Files.find_eq_ok.1 h
  exact hproper.get? hnode

theorem isFileName_of_mem_entryNames (hproper : files.root.Proper)
    (h : name ∈ entryNames files path) : IsFileName name := by
  obtain ⟨entries, hfound⟩ := exists_of_mem_entryNames h
  obtain ⟨entry, hentry, rfl⟩ := List.mem_map.1 ((mem_entryNames hfound).1 h)
  cases proper_of_find hproper hfound with
  | directory hnames hdistinct hnodes => exact hnames entry hentry

/-- **The names of a directory are in strictly ascending order.** -/
theorem pairwise_entryNames (hproper : files.root.Proper) (path : List Char) :
    (entryNames files path).Pairwise (· < ·) := by
  cases hlistable : files.isListable path with
  | false =>
      rw [entryNames_of_not_listable hlistable]
      exact .nil
  | true =>
      obtain ⟨entries, hfound⟩ := Files.isListable_iff.1 hlistable
      rw [entryNames_eq hfound]
      cases proper_of_find hproper hfound with
      | directory hnames hdistinct hnodes => exact pairwise_mergeSort_names hdistinct

/-! ### One step down -/

section Steps

variable {route : List Component} {component : Component}

theorem isHere_spell (h : IsRoute route) : isHere (spell route) = true ↔ route = [] := by
  rw [isHere, beq_iff_eq]
  constructor
  · intro hcurrent
    by_contra hne
    rw [h.components_spell hne] at hcurrent
    obtain ⟨entries, hentries, rfl | rfl⟩ := h
    · exact (hentries .current (by simp [hcurrent])).text_ne_dot rfl
    · cases hcurrent
  · rintro rfl
    rfl

/-- The path of an entry of a route. -/
theorem below_spell (h : IsRoute route) (hentry : component.IsEntry) :
    below (spell route) component.text = spell (route ++ [component]) := by
  unfold below
  by_cases hne : route = []
  · have hentries : ∀ other ∈ [component], other.IsEntry := by simpa using hentry
    rw [if_pos ((isHere_spell h).2 hne), hne, List.nil_append, Path.spell_of_ne_nil (by simp),
      Path.ofComponents_cons hentries]
    simp [Path.trail]
  · rw [if_neg (by rwa [isHere_spell h]), Path.join_spell hne]

variable {search : Search} {parts more : List Part} {tokens : List Token} {fuel : Nat}

theorem inside_literal (hname : literal? tokens = some name) :
    search.inside (.name tokens :: parts) path (fuel + 1) =
      if (if name = ['.'] ∨ name = ['.', '.'] then search.files.isDirectory path
        else entryExists search.files (below path name))
      then search.inside parts (below path name) fuel else [] := by
  rw [Search.inside, hname]

theorem inside_wildcard (hname : literal? tokens = none) :
    search.inside (.name tokens :: parts) path (fuel + 1) =
      if search.files.isListable path then
        ((dotEntries tokens).flatMap fun name =>
          search.inside parts (Path.join path name) fuel) ++
        (entryNames search.files path).flatMap fun name =>
          search.visit (.name tokens :: parts) name (below path name) fuel
      else [] := by
  rw [Search.inside, hname]

/-- What may not be listed shows no entries. -/
theorem inside_depths :
    search.inside (.depths :: parts) path (fuel + 1) =
      (entryNames search.files path).flatMap fun name =>
        search.visit (.depths :: parts) name (below path name) fuel := by
  rw [Search.inside]
  cases hlistable : search.files.isListable path with
  | true => rfl
  | false =>
      rw [entryNames_of_not_listable hlistable]
      rfl

theorem visit_depths_last (hlast : afterDepths parts = []) :
    search.visit (.depths :: parts) name path (fuel + 1) =
      if search.files.isDirectory path then path :: search.inside [.depths] path fuel else [] := by
  rw [Search.visit, afterDepths, hlast]

theorem visit_depths (hmore : afterDepths parts = more) (hne : more ≠ []) :
    search.visit (.depths :: parts) name path (fuel + 1) =
      search.visit more name path fuel ++
        if search.files.isDirectory path then search.inside (.depths :: more) path fuel
        else [] := by
  rw [Search.visit, afterDepths, hmore]
  cases more with
  | nil => exact absurd rfl hne
  | cons part rest => rfl

/-- Only what begins with a dot finds the directory itself and its parent. -/
theorem dotEntries_eq_nil {text : List Char} (h : tokensOf text = some tokens)
    (hhead : text.head? ≠ some '.') : dotEntries tokens = [] :=
  if_neg fun hdot => hhead (head?_of_tokensOf h hdot)

theorem mem_dotEntries (h : name ∈ dotEntries tokens) : name = ['.', '.'] ∨ name = ['.'] := by
  unfold dotEntries at h
  split at h
  · simpa using (List.mem_filter.1 h).1
  · cases h

theorem mem_of_mem_afterDepths {part : Part} (h : part ∈ afterDepths parts) : part ∈ parts := by
  induction parts with
  | nil => exact h
  | cons first rest ih =>
      cases first with
      | depths => exact List.mem_cons_of_mem _ (ih h)
      | name tokens => exact h

end Steps

theorem entryExists_of_isDirectory (h : files.isDirectory path = true) :
    entryExists files path = true := by
  obtain ⟨listable, entries, hfound⟩ := Files.isDirectory_iff.1 h
  rw [entryExists, Files.exists?, hfound]
  rfl

theorem entryExists_iff : entryExists files path = true ↔
    ∃ last node, last ≠ .create ∧ files.find last path = .ok node := by
  have hfound : ∀ last, (files.find last path).toOption.isSome = true ↔
      ∃ node, files.find last path = .ok node := by
    intro last
    cases files.find last path <;> simp [Except.toOption]
  rw [entryExists, Files.exists?, Bool.or_eq_true, hfound, hfound]
  constructor
  · rintro (⟨node, hnode⟩ | ⟨node, hnode⟩)
    · exact ⟨.follow, node, by decide, hnode⟩
    · exact ⟨.stay, node, by decide, hnode⟩
  · rintro ⟨last, node, hlast, hnode⟩
    cases last with
    | follow => exact Or.inl ⟨node, hnode⟩
    | stay => exact Or.inr ⟨node, hnode⟩
    | create => exact absurd rfl hlast

/-- Nothing is found under a path that is too long. -/
theorem entryExists_of_long (h : pathLimit ≤ Utf8.byteSize path) :
    entryExists files path = false := by
  rw [Bool.eq_false_iff]
  intro hexists
  obtain ⟨last, node, -, hfound⟩ := entryExists_iff.1 hexists
  obtain ⟨place, hplace, -⟩ := Files.find_eq_ok.1 hfound
  exact absurd (Files.locate_eq_ok.1 hplace).1 (Nat.not_lt.2 h)

/-- Parts between slashes: no name among them has a slash in it. -/
def AreCut (parts : List Part) : Prop :=
  ∀ tokens name, .name tokens ∈ parts → literal? tokens = some name → '/' ∉ name

theorem AreCut.isAbsolute {parts : List Part} {tokens : List Token} (h : AreCut parts)
    (hmem : .name tokens ∈ parts) (hname : literal? tokens = some name) :
    Path.isAbsolute name = false :=
  Path.isAbsolute_of_not_mem (h tokens name hmem hname)

theorem AreCut.tail {part : Part} {parts : List Part} (h : AreCut (part :: parts)) :
    AreCut parts :=
  fun tokens name hmem => h tokens name (List.mem_cons_of_mem part hmem)

theorem AreCut.afterDepths {parts : List Part} (h : AreCut parts) : AreCut (afterDepths parts) :=
  fun tokens name hmem => h tokens name (mem_of_mem_afterDepths hmem)

theorem AreCut.depths {parts : List Part} (h : AreCut parts) : AreCut (.depths :: parts) := by
  intro tokens name hmem
  rcases List.mem_cons.1 hmem with hdepths | hmem
  · cases hdepths
  · exact h tokens name hmem

section Descent

variable {search : Search} {parts : List Part} {tokens : List Token} {fuel : Nat}
  {route front base more : List Component}

/-- The part of a component without wildcards. -/
def literalPart (component : Component) : Part :=
  .name (component.text.map .char)

/-- **Parts without wildcards lead to the directory that they spell.** -/
theorem inside_literals (h : IsRoute route) (hmore : ∀ component ∈ more, component.IsEntry)
    (hdirectory : search.files.isDirectory (spell (route ++ more)) = true) :
    search.inside (more.map literalPart ++ parts) (spell route) (more.length + fuel) =
      search.inside parts (spell (route ++ more)) fuel := by
  induction more generalizing route with
  | nil => rw [List.append_nil, List.map_nil, List.nil_append, List.length_nil, Nat.zero_add]
  | cons component rest ih =>
      obtain ⟨hcomponent, hrest⟩ := List.forall_mem_cons.1 hmore
      have hnext := h.concat hcomponent
      rw [List.append_cons] at hdirectory
      have hthere := Files.isDirectory_of_append hnext hrest hdirectory
      have haround := Files.isDirectory_of_append h (by simpa using hcomponent) hthere
      have hfuel : (component :: rest).length + fuel = (rest.length + fuel) + 1 := by
        rw [List.length_cons]
        omega
      rw [hfuel, List.map_cons, List.cons_append, literalPart,
        inside_literal (literal?_eq_some.2 rfl), below_spell h hcomponent, haround,
        entryExists_of_isDirectory hthere, ite_self, if_pos rfl, ih hnext hrest hdirectory,
        ← List.append_cons]

theorem partsOf_ofComponents (hmore : ∀ component ∈ more, component.IsEntry) (hne : more ≠ []) :
    partsOf (Path.ofComponents more) = more.mapM fun component => partOf component.text := by
  have hlast : (more.map Component.text).getLast? ≠ some [] := by
    intro hlast
    obtain ⟨component, hcomponent, hnil⟩ := List.mem_map.1 (List.mem_of_getLast? hlast)
    exact (hmore component hcomponent).text_ne_nil hnil
  rw [partsOf, Path.split_ofComponents hmore hne, if_neg fun h => hlast h.1, List.mapM_map]
  rfl

theorem mapM_partOf_of_plain (h : ∀ component ∈ base, IsPlain component.text) :
    (base.mapM fun component => partOf component.text) = some (base.map literalPart) := by
  induction base with
  | nil => rfl
  | cons component rest ih =>
      obtain ⟨hcomponent, hrest⟩ := List.forall_mem_cons.1 h
      rw [List.mapM_cons, partOf_of_plain hcomponent, ih hrest]
      rfl

/-- The path of a route is searched from the root or from the current directory. -/
theorem matchingPaths_spell (hfront : front = [] ∨ front = [.root])
    (hmore : ∀ component ∈ more, component.IsEntry) (hne : more ≠ []) :
    matchingPaths files (spell (front ++ more)) =
      match more.mapM fun component => partOf component.text with
      | none => []
      | some parts =>
          Search.inside ⟨files, false⟩ parts (spell front) (2 * (parts.length + pathLimit)) := by
  have hroute : IsRoute (front ++ more) := by
    rcases hfront with rfl | rfl
    · exact ⟨more, hmore, Or.inl rfl⟩
    · exact ⟨more, hmore, Or.inr rfl⟩
  have hdirectories : decide ((spell (front ++ more)).getLast? = some '/') = false := by
    rw [decide_eq_false_iff_not, hroute.getLast?_spell]
    rcases hfront with rfl | rfl
    · intro hroot
      rw [List.nil_append] at hroot
      exact (hmore .root (by simp [hroot])).ne_root rfl
    · simpa using hne
  rw [matchingPaths, hdirectories, hroute.isAbsolute_spell, ← partsOf_ofComponents hmore hne]
  rcases hfront with rfl | rfl
  · have hrelative : ((([] ++ more).head? : Option Component) == some .root) = false := by
      cases more with
      | nil => exact absurd rfl hne
      | cons first rest => simpa using (hmore first List.mem_cons_self).ne_root
    rw [hrelative, List.nil_append, Path.spell_of_ne_nil hne]
    rfl
  · rw [List.singleton_append, Path.spell_root_cons hmore]
    rfl

/-- **What stands behind the path of a directory is searched in that directory.** -/
theorem matchingPaths_descend (h : IsRoute route)
    (hplain : ∀ component ∈ route, IsPlain component.text)
    (hmore : ∀ component ∈ more, component.IsEntry) (hne : routeNames (route ++ more) ≠ [])
    (hdirectory : files.isDirectory (spell route) = true) :
    matchingPaths files (spell (route ++ more)) =
      match more.mapM fun component => partOf component.text with
      | none => []
      | some parts =>
          Search.inside ⟨files, false⟩ parts (spell route)
            ((routeNames route).length + 2 * (parts.length + pathLimit)) := by
  obtain ⟨front, base, rfl, hfront, hbase⟩ := h.exists_front
  have hstart : IsRoute front := h.of_append
  have hnames : (routeNames (front ++ base)).length = base.length := by
    have hnone : routeNames front = [] := by rcases hfront with rfl | rfl <;> rfl
    rw [routeNames_append, hnone, routeNames_of_entries hbase, List.nil_append, List.length_map]
  have hentries : ∀ component ∈ base ++ more, component.IsEntry := by
    intro component hmem
    rcases List.mem_append.1 hmem with hmem | hmem
    · exact hbase component hmem
    · exact hmore component hmem
  have hsome : base ++ more ≠ [] := by
    rintro hnil
    rw [List.append_assoc, hnil, List.append_nil] at hne
    rcases hfront with rfl | rfl <;> exact hne rfl
  rw [List.append_assoc, matchingPaths_spell hfront hentries hsome, List.mapM_append,
    mapM_partOf_of_plain fun component hmem => hplain component (List.mem_append_right front hmem),
    hnames]
  cases more.mapM fun component => partOf component.text with
  | none => rfl
  | some parts =>
      have hfuel : 2 * ((base.map literalPart ++ parts).length + pathLimit) =
          base.length + (base.length + 2 * (parts.length + pathLimit)) := by
        rw [List.length_append, List.length_map]
        omega
      show Search.inside ⟨files, false⟩ (base.map literalPart ++ parts) (spell front)
        (2 * ((base.map literalPart ++ parts).length + pathLimit)) = _
      rw [hfuel, inside_literals hstart hbase hdirectory]

end Descent

/-! ### Patterns behind a base -/

/-- A base that stands for itself in a pattern. -/
structure IsLiteralBase (base : List Char) : Prop where
  literal : ∀ c ∈ base, c ≠ '*' ∧ c ≠ '?' ∧ c ≠ '[' ∧ c ≠ '$'
  home : (Path.normalize base).head? ≠ some '~'

section Base

variable {base pattern : List Char} {form : Path.Form} {names : List Name}

theorem IsLiteralBase.isPlain (h : IsLiteralBase base) (hform : Path.IsFormOf form base) :
    ∀ component ∈ form.components, IsPlain component.text := by
  intro component hmem c hc
  have hin := form.isRoute.mem_spell hmem hc
  rw [← form.text_eq_spell, ← hform.text] at hin
  rcases Path.mem_normalize hin with hbase | rfl | rfl
  · obtain ⟨hrun, hany, hclass, -⟩ := h.literal c hbase
    exact ⟨hrun, hany, hclass⟩
  · decide
  · decide

variable (hbase : IsLiteralBase base) (hform : Path.IsFormOf form base)
  (hne : form.components ≠ []) (hrelative : Path.isAbsolute pattern = false)
  (hdollar : '$' ∉ pattern) (hnames : ∀ name ∈ names, (Component.name name).IsEntry)
  (hresolve : ∀ start, Path.resolve start pattern = start ++ names)

include hbase hform hne hrelative hdollar hnames hresolve

/-- **A pattern is searched behind the normal form of its base, as both are written.** -/
theorem expand_eq_matchingPaths (environment : Environment) :
    expand files environment pattern base =
      matchingPaths files (spell (form.components ++ names.map .name)) := by
  have hentries : ∀ component ∈ names.map Component.name, component.IsEntry := by simpa using hnames
  have htext := Path.normalize_join hform hrelative hnames hresolve
  have hhead : (Path.normalize (Path.join base pattern)).head? ≠ some '~' := by
    rw [htext, form.isRoute.head?_spell_append hne hentries, ← form.text_eq_spell, ← hform.text]
    exact hbase.home
  have hread : '$' ∉ Path.normalize (Path.join base pattern) := by
    intro hmem
    rcases Path.mem_normalize hmem with hmem | hdot | hslash
    · rcases Path.mem_join hmem with hin | hin | hslash
      · exact (hbase.literal _ hin).2.2.2 rfl
      · exact hdollar hin
      · exact absurd hslash (by decide)
    · exact absurd hdot (by decide)
    · exact absurd hslash (by decide)
  rw [expand, expandReferences_of_not_mem hread hhead, htext]

/-- **The search for the pattern begins in the directory that its base leads to.** -/
theorem expand_descend (environment : Environment)
    (hsome : routeNames (form.components ++ names.map .name) ≠ [])
    (hdirectory : files.isDirectory (Path.normalize base) = true) :
    expand files environment pattern base =
      match (names.map Component.name).mapM fun component => partOf component.text with
      | none => []
      | some parts =>
          Search.inside ⟨files, false⟩ parts (Path.normalize base)
            ((routeNames form.components).length + 2 * (parts.length + pathLimit)) := by
  have hentries : ∀ component ∈ names.map Component.name, component.IsEntry := by simpa using hnames
  rw [hform.text, form.text_eq_spell] at hdirectory
  rw [expand_eq_matchingPaths hbase hform hne hrelative hdollar hnames hresolve,
    matchingPaths_descend form.isRoute (hbase.isPlain hform) hentries hsome hdirectory,
    hform.text, form.text_eq_spell]

end Base

end Workbench.Pattern
