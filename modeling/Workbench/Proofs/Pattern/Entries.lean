/-
What a pattern finds in one directory.

The path of the directory is read as it is written, if no character in it means anything else, and
the search goes down to the directory without a choice.  There a part with wildcards is compared
with the entries: those that it fits are found, in the order of their bytes, whether or not they
can be reached, because nothing behind the part asks for it.

A part without wildcards is not compared but looked up, so it finds an entry only if the path of the
entry is short enough for the system.  A part with wildcards asks for all names at once, so it finds
nothing in a directory that may not be listed, and the search says nothing about that.
-/
import Workbench.Proofs.Pattern.Depth
import Workbench.Proofs.Utf8.Order

namespace Workbench.Pattern

open Workbench.Path (Name Component IsRoute spell)

variable {files : Files} {path pattern dir : List Char} {name : Name}
  {listable : Bool} {entries : List (Name × Node)}

/-- A path in normal form that stands for itself in a pattern. -/
structure IsLiteralPath (dir : List Char) : Prop where
  absolute : Path.isAbsolute dir = true
  normal : Path.normalize dir = dir
  literal : ∀ c ∈ dir, c ≠ '*' ∧ c ≠ '?' ∧ c ≠ '[' ∧ c ≠ '$'

/-- A pattern of one part, without brackets, that does not begin with a dot. -/
structure IsEntryPattern (pattern : List Char) : Prop where
  ne_nil : pattern ≠ []
  simple : ∀ c ∈ pattern, c ≠ '/' ∧ c ≠ '[' ∧ c ≠ '$'
  runs : ¬ ['*', '*'] <:+: pattern
  head : pattern.head? ≠ some '.'

/-! ### The path that is searched -/

theorem IsEntryPattern.isEntry (h : IsEntryPattern pattern) :
    (Component.name pattern).IsEntry := by
  refine ⟨?_, fun hslash => (h.simple _ hslash).1 rfl⟩
  have hdot : pattern ≠ ['.'] := by
    rintro rfl
    exact h.head rfl
  have hdots : pattern ≠ ['.', '.'] := by
    rintro rfl
    exact h.head rfl
  rw [Path.ofStretch, Component.text, if_neg (by simp [h.ne_nil, hdot]), if_neg hdots]

theorem IsLiteralPath.isLiteralBase (h : IsLiteralPath dir) : IsLiteralBase dir := by
  refine ⟨h.literal, ?_⟩
  obtain ⟨rest, hrest⟩ := Path.isAbsolute_iff.1 h.absolute
  rw [h.normal, hrest]
  simp

/-- The route of the path. -/
theorem IsLiteralPath.exists_form (h : IsLiteralPath dir) :
    ∃ form : Path.Form, Path.IsFormOf form dir ∧ form.components ≠ [] ∧
      dir = spell form.components := by
  obtain ⟨form, hform⟩ := Path.exists_isFormOf dir
  refine ⟨form, hform, ?_, ?_⟩
  · rw [form.components_of_root (hform.root.2 h.absolute)]
    exact List.cons_ne_nil _ _
  · rw [← form.text_eq_spell, ← hform.text, h.normal]

/-! ### The entries that are found -/

section Search

variable {search : Search} {tokens : List Token} {fuel : Nat}

/-- A wildcard at the end finds the entries that it matches. -/
theorem inside_last_wildcard (hsearch : search.directoriesOnly = false)
    (hliteral : literal? tokens = none) (hdots : dotEntries tokens = [])
    (hlistable : search.files.isListable path = true) :
    search.inside [.name tokens] path (fuel + 3) =
      ((entryNames search.files path).filter (matchesName tokens)).map (below path) := by
  have hvisit : ∀ name, search.visit [.name tokens] name (below path name) (fuel + 2) =
      if matchesName tokens name then [below path name] else [] := by
    intro name
    rw [Search.visit, Search.inside, Search.found, hsearch]
    rfl
  rw [Search.inside, hliteral]
  dsimp only
  rw [if_pos hlistable, hdots, List.flatMap_nil, List.nil_append]
  simp only [hvisit]
  induction entryNames search.files path with
  | nil => rfl
  | cons name rest ih =>
      rw [List.flatMap_cons, ih, List.filter_cons]
      split <;> rfl

/-- A name at the end finds what exists under it. -/
theorem inside_last_literal (hsearch : search.directoriesOnly = false)
    (hliteral : literal? tokens = some name) (hname : name ≠ ['.'] ∧ name ≠ ['.', '.']) :
    search.inside [.name tokens] path (fuel + 2) =
      if entryExists search.files (below path name) then [below path name] else [] := by
  have hdots : ¬ (name = ['.'] ∨ name = ['.', '.']) := by simp [hname]
  rw [inside_literal hliteral]
  simp only [if_neg hdots, Search.inside, Search.found, hsearch]
  rfl

end Search

/-- A pattern without wildcards stands for one name. -/
theorem fits_iff_of_plain (h : IsPlain pattern) : Fits pattern name ↔ name = pattern := by
  constructor
  · intro hfits
    induction hfits with
    | nil => rfl
    | run => exact absurd rfl (h '*' List.mem_cons_self).1
    | any => exact absurd rfl (h '?' List.mem_cons_self).2.1
    | char hc hrest ih => rw [ih fun c hc => h c (List.mem_cons_of_mem _ hc)]
  · rintro rfl
    induction name with
    | nil => exact .nil
    | cons c rest ih =>
        obtain ⟨hrun, hany, -⟩ := h c List.mem_cons_self
        exact .char ⟨hrun, hany⟩ (ih fun c hc => h c (List.mem_cons_of_mem _ hc))

theorem literal?_of_not_plain (hpattern : IsEntryPattern pattern) (h : ¬ IsPlain pattern) :
    literal? (pattern.map tokenOf) = none := by
  rw [Option.eq_none_iff_forall_ne_some]
  intro name hname
  rw [literal?_eq_some] at hname
  refine h fun c hc => ?_
  obtain ⟨d, -, hd⟩ := List.mem_map.1 (hname ▸ List.mem_map_of_mem hc)
  refine ⟨?_, ?_, (hpattern.simple c hc).2.1⟩
  all_goals
    rintro rfl
    cases hd

theorem IsLiteralPath.below_eq (h : IsLiteralPath dir) : below dir = Path.join dir := by
  obtain ⟨form, -, hne, rfl⟩ := h.exists_form
  funext name
  rw [below, if_neg (by rwa [isHere_spell form.isRoute])]

/-- **The pattern is searched in the directory**, with fuel left. -/
theorem exists_expand_eq_inside (environment : Environment) (hdir : IsLiteralPath dir)
    (hpattern : IsEntryPattern pattern) (hdirectory : files.isDirectory dir = true) :
    ∃ fuel, expand files environment pattern dir =
      Search.inside ⟨files, false⟩ [.name (pattern.map tokenOf)] dir (fuel + 3) := by
  obtain ⟨form, hform, hne, -⟩ := hdir.exists_form
  have hentry := hpattern.isEntry
  have hpart : ([pattern].map Component.name).mapM (fun component => partOf component.text) =
      some [.name (pattern.map tokenOf)] := by
    rw [List.map_singleton, List.mapM_cons, Component.text,
      partOf_eq (fun hmem => (hpattern.simple _ hmem).2.1 rfl) hpattern.runs]
    rfl
  have hsome : routeNames (form.components ++ [pattern].map .name) ≠ [] := by
    rw [routeNames_append, routeNames_names]
    simp
  have hfuel : (routeNames form.components).length + 2 * (1 + pathLimit) =
      (routeNames form.components).length + 2 * pathLimit - 1 + 3 := by
    rw [pathLimit]
    omega
  refine ⟨(routeNames form.components).length + 2 * pathLimit - 1, ?_⟩
  rw [expand_descend hdir.isLiteralBase hform hne (Path.isAbsolute_name hentry)
    (fun hmem => (hpattern.simple _ hmem).2.2 rfl) (by simpa using hentry)
    (Path.resolve_name hentry) environment hsome (by rwa [hdir.normal]), hpart, hdir.normal,
    ← hfuel]
  simp only [List.length_singleton]

/-- A pattern without wildcards is looked up. -/
theorem expand_plain (environment : Environment) (hdir : IsLiteralPath dir)
    (hdirectory : files.isDirectory dir = true) (hpattern : IsEntryPattern pattern)
    (hplain : IsPlain pattern) :
    expand files environment pattern dir =
      if entryExists files (Path.join dir pattern) then [Path.join dir pattern] else [] := by
  obtain ⟨fuel, hsearch⟩ := exists_expand_eq_inside environment hdir hpattern hdirectory
  have hdots : pattern ≠ ['.'] ∧ pattern ≠ ['.', '.'] :=
    ⟨fun hdot => hpattern.head (by rw [hdot]; rfl),
      fun hdots => hpattern.head (by rw [hdots]; rfl)⟩
  rw [hsearch, inside_last_literal rfl (literal?_eq_some.2 (map_tokenOf_of_plain hplain)) hdots,
    hdir.below_eq]

/-- A pattern with a wildcard is compared with each entry of the directory. -/
theorem expand_wildcard (environment : Environment) (hdir : IsLiteralPath dir)
    (hfound : files.find .follow dir = .ok (.directory true entries))
    (hpattern : IsEntryPattern pattern) (hplain : ¬ IsPlain pattern) :
    expand files environment pattern dir =
      ((entryNames files dir).filter (matchesName (pattern.map tokenOf))).map (Path.join dir) := by
  obtain ⟨fuel, hsearch⟩ := exists_expand_eq_inside environment hdir hpattern
    (Files.isDirectory_iff.2 ⟨_, entries, hfound⟩)
  have htokens := tokensOf_eq (fun hmem => (hpattern.simple _ hmem).2.1 rfl) hpattern.runs
  rw [hsearch, inside_last_wildcard rfl (literal?_of_not_plain hpattern hplain)
    (dotEntries_eq_nil htokens hpattern.head) (Files.isListable_iff.2 ⟨entries, hfound⟩),
    hdir.below_eq]

/-- What a pattern finds in a directory are the paths of those of its names that it fits, each of
them once and in the order of their bytes. -/
def FindsEntries (files : Files) (environment : Environment) (pattern dir : List Char)
    (names : List Name) : Prop :=
  ∃ found : List Name,
    expand files environment pattern dir = found.map (Path.join dir) ∧
    (∀ name, name ∈ found ↔ name ∈ names ∧ Fits pattern name) ∧
    found.Pairwise fun a b => Utf8.encode (String.ofList a) < Utf8.encode (String.ofList b)

/-- **A pattern of one part finds the entries of a directory that fit it**, if it has a wildcard and
the directory may be listed, or if it has none and the path of what it names is not too long. -/
theorem expand_entries (environment : Environment) (hproper : files.root.Proper)
    (hdir : IsLiteralPath dir) (hfound : files.find .follow dir = .ok (.directory listable entries))
    (hpattern : IsEntryPattern pattern) (hlistable : ¬ IsPlain pattern → listable = true)
    (hshort : IsPlain pattern → Utf8.byteSize (Path.join dir pattern) < pathLimit) :
    FindsEntries files environment pattern dir (entries.map Prod.fst) := by
  by_cases hplain : IsPlain pattern
  · -- the one name is looked up
    have hexists : entryExists files (Path.join dir pattern) = true ↔
        pattern ∈ entries.map Prod.fst := by
      obtain ⟨form, -, hne, rfl⟩ := hdir.exists_form
      have hjoin := Path.join_spell hne (.name pattern)
      rw [Component.text] at hjoin
      rw [entryExists_iff, hjoin]
      exact Files.exists_entry_iff form.isRoute hproper hfound hpattern.isEntry
        (hjoin ▸ hshort hplain)
    rw [FindsEntries, expand_plain environment hdir (Files.isDirectory_iff.2 ⟨_, entries, hfound⟩)
      hpattern hplain]
    by_cases hthere : pattern ∈ entries.map Prod.fst
    · refine ⟨[pattern], if_pos (hexists.2 hthere), fun name => ?_, List.pairwise_singleton _ _⟩
      rw [List.mem_singleton, fits_iff_of_plain hplain, iff_and_self]
      rintro rfl
      exact hthere
    · refine ⟨[], if_neg fun h => hthere (hexists.1 h), fun name => ?_, .nil⟩
      refine iff_of_false List.not_mem_nil ?_
      rintro ⟨hname, hfits⟩
      refine hthere ?_
      rwa [(fits_iff_of_plain hplain).1 hfits] at hname
  · obtain rfl := hlistable hplain
    rw [FindsEntries, expand_wildcard environment hdir hfound hpattern hplain]
    refine ⟨_, rfl, fun name => ?_, ?_⟩
    · rw [List.mem_filter, matchesName_iff, mem_entryNames hfound]
    · exact ((pairwise_entryNames hproper dir).filter _).imp Utf8.encode_lt_encode

/-- The files of a root with one directory in it. -/
def filesInWork (listable : Bool) (entries : List (Name × Node)) : Files where
  root := .directory true [("work".toList, .directory listable entries)]
  here := []

theorem find_work (listable : Bool) (entries : List (Name × Node)) :
    (filesInWork listable entries).find .follow "/work".toList =
      .ok (.directory listable entries) := by
  have hroute : IsRoute [.root, .name "work".toList] :=
    ⟨[.name "work".toList], by decide, Or.inr rfl⟩
  refine (Files.find_spell_directory hroute).2 ⟨by decide, by decide, ["work".toList], ?_, rfl⟩
  exact .enter rfl ⟨by decide, by decide, by decide, by decide⟩ rfl (by simp [Node.kind]) .here

theorem proper_filesInWork {listable : Bool} {entries : List (Name × Node)}
    (h : (Node.directory listable entries).Proper) :
    (filesInWork listable entries).root.Proper := by
  have hname : IsFileName "work".toList := by decide
  refine .directory (by simpa using hname) (List.nodup_singleton _) ?_
  simpa only [List.forall_mem_cons, List.not_mem_nil, false_implies, implies_true, and_true] using h

theorem isLiteralPath_work : IsLiteralPath "/work".toList :=
  ⟨rfl, by decide +kernel, by simp⟩

theorem isEntryPattern_texts : IsEntryPattern "*.txt".toList :=
  ⟨by decide, by simp, by decide, by decide⟩

/-- Three texts, one of them a link to nowhere, and a list. -/
def textsAndList : List (Name × Node) :=
  [("b.txt".toList, .file [] 0o644), (".txt".toList, .link "away".toList),
    ("a.txt".toList, .file [] 0o644), ("list".toList, .file [] 0o644)]

theorem proper_textsAndList (listable : Bool) : (Node.directory listable textsAndList).Proper := by
  refine .directory (by decide) (by decide) ?_
  simp only [textsAndList, List.forall_mem_cons, List.not_mem_nil, false_implies, implies_true,
    and_true]
  exact ⟨.file, .link, .file, .file⟩

theorem expand_entries_texts :
    FindsEntries (filesInWork true textsAndList) (.ofPairs []) "*.txt".toList "/work".toList
      (["b.txt", ".txt", "a.txt", "list"].map String.toList) :=
  expand_entries (.ofPairs []) (proper_filesInWork (proper_textsAndList true))
    isLiteralPath_work (find_work true textsAndList) isEntryPattern_texts (fun _ => rfl)
    fun hplain => absurd rfl (hplain '*' (by decide)).1

/-! ### Entries that are not found -/

/-- **A pattern with a wildcard finds nothing in a directory that may not be listed.** -/
theorem expand_eq_nil_of_not_listable (environment : Environment) (hdir : IsLiteralPath dir)
    (hfound : files.find .follow dir = .ok (.directory false entries))
    (hpattern : IsEntryPattern pattern) (hplain : ¬ IsPlain pattern) :
    expand files environment pattern dir = [] := by
  obtain ⟨fuel, hsearch⟩ := exists_expand_eq_inside environment hdir hpattern
    (Files.isDirectory_iff.2 ⟨_, entries, hfound⟩)
  have hclosed : files.isListable dir = false := by rw [Files.isListable, hfound]
  rw [hsearch, inside_wildcard (literal?_of_not_plain hpattern hplain), hclosed]
  rfl

/-- **A name is not looked up where its path is too long**, so nothing is found. -/
theorem expand_eq_nil_of_long (environment : Environment) (hdir : IsLiteralPath dir)
    (hdirectory : files.isDirectory dir = true) (hpattern : IsEntryPattern pattern)
    (hplain : IsPlain pattern) (hlong : pathLimit ≤ Utf8.byteSize (Path.join dir pattern)) :
    expand files environment pattern dir = [] := by
  rw [expand_plain environment hdir hdirectory hpattern hplain, entryExists_of_long hlong]
  rfl

/-- It is wrong that nothing is found if the pattern fits a name. -/
theorem not_findsEntries_of_eq_nil {environment : Environment} {names : List Name}
    (h : expand files environment pattern dir = []) (hname : name ∈ names)
    (hfits : Fits pattern name) : ¬ FindsEntries files environment pattern dir names := by
  rintro ⟨found, hfiles, hfound, -⟩
  obtain rfl : found = [] := by simpa [h] using hfiles.symm
  exact List.not_mem_nil ((hfound name).2 ⟨hname, hfits⟩)

/-- The longest name that an entry can have. -/
def longest (c : Char) : Name :=
  List.replicate longestName c

/-- A directory with a link to itself and a file with the longest name. -/
def selfLinked (link : Name) : Files where
  root := .directory true [(link, .link ['.']), (longest 'b', .file [] 0o644)]
  here := []

/-- A path that leads through the link again and again, back to the directory. -/
def throughLink (link : Name) (rounds : Nat) : List Char :=
  spell (.root :: List.replicate rounds (.name link))

section SelfLinked

variable {link : Name} {rounds : Nat}

theorem proper_selfLinked (hlink : IsFileName link) (hother : link ≠ longest 'b') :
    (selfLinked link).root.Proper := by
  have hlongest : IsFileName (longest 'b') := .replicate (by decide) (by decide) (by decide)
  refine .directory ?_ (by simpa using hother) ?_
  · simpa using ⟨hlink, hlongest⟩
  · simp only [List.forall_mem_cons, List.not_mem_nil, false_implies, implies_true, and_true]
    exact ⟨.link, .file⟩

theorem walks_throughLink (hlink : IsFileName link) (rounds links : Nat) :
    Walks (selfLinked link).root .follow (links + rounds) [] (List.replicate rounds link) [] := by
  induction rounds with
  | zero => exact .here
  | succ rounds ih =>
      rw [List.replicate_succ, ← Nat.add_assoc]
      have hkind : (selfLinked link).root.kind? ([] ++ [link]) = some (.link ['.']) := by
        simp [selfLinked, Node.kind?, Node.get?, Node.kind]
      refine .link rfl (hlink.isLookedUp (by decide) _) hkind (by simp) ?_
      exact .dot rfl (Or.inr rfl) ih

theorem mem_throughLink {c : Char} (hc : c ∈ throughLink link rounds) : c = '/' ∨ c ∈ link := by
  rcases Path.mem_extend hc with hnil | hslash | ⟨component, hmem, htext⟩
  · cases hnil
  · exact Or.inl hslash
  · rcases List.mem_cons.1 hmem with rfl | hmem
    · exact Or.inl (List.mem_singleton.1 htext)
    · rw [List.eq_of_mem_replicate hmem] at htext
      exact Or.inr htext

theorem isLiteralPath_throughLink (hlink : (Component.name link).IsEntry)
    (hplain : ∀ c ∈ link, c ≠ '*' ∧ c ≠ '?' ∧ c ≠ '[' ∧ c ≠ '$') :
    IsLiteralPath (throughLink link rounds) := by
  let form : Path.Form := ⟨.root, List.replicate rounds link, fun name hmem => by
    rwa [List.eq_of_mem_replicate hmem]⟩
  have htext : throughLink link rounds = form.text := by
    rw [form.text_eq_spell, Path.Form.components, List.map_replicate]
    rfl
  refine ⟨?_, ?_, fun c hc => ?_⟩
  · rw [htext, form.isAbsolute_text]
  · rw [htext]
    exact Path.normalize_eq_text fun start _ => form.resolve_text start
  · rcases mem_throughLink hc with rfl | hc
    · decide
    · exact hplain c hc

theorem byteSize_throughLink (hlink : (Component.name link).IsEntry) (rounds : Nat) :
    Utf8.byteSize (throughLink link (rounds + 1)) = (rounds + 1) * (Utf8.byteSize link + 1) := by
  have hentries := hlink.replicate (rounds + 1)
  have htrail : throughLink link (rounds + 1) =
      Path.trail (List.replicate (rounds + 1) (.name link)) := by
    rw [throughLink, Path.spell_root_cons hentries, List.replicate_succ,
      Path.ofComponents_cons hentries]
    rfl
  rw [htrail, byteSize_trail_replicate]
  rfl

/-- The path leads to the directory, as long as it is no longer than a path may be. -/
theorem find_throughLink (hlink : IsFileName link) (hrounds : rounds ≤ linkLimit)
    (hshort : Utf8.byteSize (throughLink link rounds) < pathLimit) :
    (selfLinked link).find .follow (throughLink link rounds) = .ok (selfLinked link).root := by
  have hroute : IsRoute (.root :: List.replicate rounds (.name link)) :=
    ⟨_, hlink.entry.replicate rounds, Or.inr rfl⟩
  have hzero : '\x00' ∉ throughLink link rounds := fun hmem =>
    (mem_throughLink hmem).elim (by decide) hlink.zero
  have hnames : routeNames (.root :: List.replicate rounds (.name link)) =
      List.replicate rounds link := by
    rw [← List.map_replicate]
    exact routeNames_names _
  refine (Files.find_spell_directory hroute).2 ⟨hzero, hshort, [], ?_, rfl⟩
  rw [hnames, ← Nat.sub_add_cancel hrounds]
  exact walks_throughLink hlink rounds _

end SelfLinked

/-- **Entries are missed**, though they fit the pattern: those of a directory that may not be
listed, if there is a wildcard, and one whose path is too long, if there is none. -/
theorem expand_misses_entries :
    ((filesInWork false textsAndList).root.Proper ∧ IsLiteralPath "/work".toList ∧
      (filesInWork false textsAndList).find .follow "/work".toList =
        .ok (.directory false textsAndList) ∧
      IsEntryPattern "*.txt".toList ∧
      ¬ FindsEntries (filesInWork false textsAndList) (.ofPairs []) "*.txt".toList "/work".toList
        (textsAndList.map Prod.fst)) ∧
    (selfLinked (longest 'a')).root.Proper ∧ IsLiteralPath (throughLink (longest 'a') 15) ∧
      (selfLinked (longest 'a')).find .follow (throughLink (longest 'a') 15) =
        .ok (selfLinked (longest 'a')).root ∧
      IsEntryPattern (longest 'b') ∧
      ¬ FindsEntries (selfLinked (longest 'a')) (.ofPairs []) (longest 'b')
        (throughLink (longest 'a') 15) [longest 'a', longest 'b'] := by
  have hwild : ¬ IsPlain "*.txt".toList := fun hplain => absurd rfl (hplain '*' (by decide)).1
  have hplain : IsPlain (longest 'b') := by
    intro c hc
    rw [List.eq_of_mem_replicate hc]
    decide
  have hlink : IsFileName (longest 'a') := .replicate (by decide) (by decide) (by decide)
  have hdir : IsLiteralPath (throughLink (longest 'a') 15) :=
    isLiteralPath_throughLink hlink.entry fun c hc => by
      rw [List.eq_of_mem_replicate hc]
      decide
  have hshort : Utf8.byteSize (throughLink (longest 'a') 15) < pathLimit := by
    rw [byteSize_throughLink hlink.entry, longest, Utf8.byteSize_replicate]
    decide
  have hfound := find_throughLink hlink (by decide) hshort
  have hpattern : IsEntryPattern (longest 'b') :=
    ⟨by decide, fun c hc => by rw [List.eq_of_mem_replicate hc]; decide, by decide +kernel,
      by decide⟩
  have hunlisted : expand (filesInWork false textsAndList) (.ofPairs []) "*.txt".toList
      "/work".toList = [] :=
    expand_eq_nil_of_not_listable _ isLiteralPath_work (find_work false textsAndList)
      isEntryPattern_texts hwild
  have hlong : expand (selfLinked (longest 'a')) (.ofPairs []) (longest 'b')
      (throughLink (longest 'a') 15) = [] :=
    expand_eq_nil_of_long _ hdir (Files.isDirectory_iff.2 ⟨_, _, hfound⟩) hpattern hplain
      (by decide +kernel)
  have hfits : Fits "*.txt".toList ".txt".toList :=
    .run [] (.char (by decide) (.char (by decide) (.char (by decide) (.char (by decide) .nil))))
  exact ⟨⟨proper_filesInWork (proper_textsAndList false), isLiteralPath_work,
      find_work false textsAndList, isEntryPattern_texts,
      not_findsEntries_of_eq_nil hunlisted (by decide) hfits⟩,
    proper_selfLinked hlink (by decide), hdir, hfound, hpattern,
      not_findsEntries_of_eq_nil hlong (by simp) ((fits_iff_of_plain hplain).2 rfl)⟩

end Workbench.Pattern
