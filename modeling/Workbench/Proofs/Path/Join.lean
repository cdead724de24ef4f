/-
What joining does to components.

Apart from a dot at the beginning, the components of a path are the root, if it is absolute, and
what its stretches stand for (`course`).  A slash between two texts lets the stretches of the one
follow those of the other, and a stretch without text stands for nothing; so the course of a joined
path is that of its base with that of the relative path behind it, and the joined path leads where
the relative path leads from there.

Components that spell a path (`IsRoute`) are found again in its text, as the stretches between its
slashes, so a path in normal form can be taken apart and extended one entry at a time.
-/
import Mathlib.Data.List.Basic
import Workbench.Proofs.Path.Normal

namespace Workbench.Path

variable {path base : List Char} {component : Component} {route entries : List Component}

/-! ### Courses -/

/-- What the stretches of a path stand for. -/
def stretchEntries (path : List Char) : List Component :=
  (Text.split '/' path).filterMap ofStretch

theorem stretchEntries_of_not_mem {stretch : List Char} (h : '/' ∉ stretch) :
    stretchEntries stretch = (ofStretch stretch).toList := by
  rw [stretchEntries, Text.split_eq_splitOn, List.splitOn_eq_singleton h]
  cases hstretch : ofStretch stretch <;> simp [hstretch]

/-- The components of a path, without a dot at the beginning. -/
def course (path : List Char) : List Component :=
  withoutCurrent (components path)

theorem isEntry_of_mem_stretchEntries (h : component ∈ stretchEntries path) : component.IsEntry :=
  isEntry_of_mem_filterMap (List.Subset.refl _) h

theorem withoutCurrent_stretchEntries (path : List Char) :
    withoutCurrent (stretchEntries path) = stretchEntries path := by
  cases hentries : stretchEntries path with
  | nil => rfl
  | cons first rest =>
      have hmem : first ∈ stretchEntries path := by simp [hentries]
      have hfirst : first.IsEntry := isEntry_of_mem_stretchEntries hmem
      cases first with
      | current => exact absurd rfl hfirst.text_ne_dot
      | root | parent | name => rfl

theorem course_eq (path : List Char) :
    course path = (if isAbsolute path then [.root] else []) ++ stretchEntries path := by
  cases habsolute : isAbsolute path with
  | true =>
      obtain ⟨rest, rfl⟩ := isAbsolute_iff.1 habsolute
      rw [course, components_cons_slash]
      simp [withoutCurrent, stretchEntries, Text.split, ofStretch]
  | false =>
      rw [course, components_of_relative habsolute]
      split
      · rename_i stretches hsplit
        simp [withoutCurrent, stretchEntries, hsplit, ofStretch]
      · exact withoutCurrent_stretchEntries path

theorem course_of_relative (h : isAbsolute path = false) : course path = stretchEntries path := by
  rw [course_eq, h]
  rfl

/-- A dot at the beginning does not change where a path leads. -/
theorem foldl_follow_course (start : List Name) (path : List Char) :
    (course path).foldl follow start = resolve start path := by
  rw [course, resolve]
  cases components path with
  | nil => rfl
  | cons first rest => cases first <;> rfl

/-- Only the empty path has no component. -/
theorem components_eq_nil : components path = [] ↔ path = [] := by
  refine ⟨fun hnil => ?_, fun hempty => by rw [hempty]; rfl⟩
  cases path with
  | nil => rfl
  | cons c rest =>
      cases habsolute : isAbsolute (c :: rest) with
      | true =>
          rw [← root_mem_components, hnil] at habsolute
          cases habsolute
      | false =>
          have hc : c ≠ '/' := by
            rintro rfl
            cases habsolute
          rw [components_of_relative habsolute, Text.split, if_neg hc] at hnil
          cases hpieces : Text.split '/' rest with
          | nil => exact absurd hpieces (Text.split_ne_nil '/' rest)
          | cons piece pieces =>
              rw [hpieces, Text.extendFirst] at hnil
              split at hnil
              · cases hnil
              · rename_i hdot
                have hfirst := List.filterMap_eq_nil_iff.1 hnil (c :: piece) List.mem_cons_self
                have hpiece : c :: piece ≠ ['.'] := fun h => hdot pieces (by rw [h])
                rw [ofStretch, if_neg (by simp [hpiece])] at hfirst
                split at hfirst <;> cases hfirst

theorem course_eq_nil : course path = [] ↔ path = [] ∨ components path = [.current] := by
  rw [← components_eq_nil, course]
  cases components path with
  | nil => simp [withoutCurrent]
  | cons first rest => cases first <;> simp [withoutCurrent]

/-! ### Joining -/

theorem split_append_slash (front behind : List Char) :
    Text.split '/' (front ++ '/' :: behind) = Text.split '/' front ++ Text.split '/' behind := by
  simp only [Text.split_eq_splitOn]
  exact List.splitOn_append_cons_self front behind

theorem stretchEntries_append_slash (front behind : List Char) :
    stretchEntries (front ++ '/' :: behind) = stretchEntries front ++ stretchEntries behind := by
  rw [stretchEntries, split_append_slash, List.filterMap_append]
  rfl

theorem isAbsolute_append (h : base ≠ []) (path : List Char) :
    isAbsolute (base ++ path) = isAbsolute base := by
  cases base with
  | nil => exact absurd rfl h
  | cons c rest => rfl

/-- **A relative path goes on where its base ends.** -/
theorem course_join (h : isAbsolute path = false) (base : List Char) :
    course (join base path) = course base ++ stretchEntries path := by
  rw [join, h, if_neg Bool.false_ne_true]
  by_cases hempty : base = []
  · rw [if_pos (Or.inl hempty), hempty, List.nil_append, course_of_relative h]
    rfl
  · by_cases hslash : base.getLast? = some '/'
    · -- the slash that the base ends in has a stretch without text behind it
      obtain ⟨front, rfl⟩ := List.getLast?_eq_some_iff.1 hslash
      have hend : stretchEntries (front ++ ['/']) = stretchEntries front := by
        rw [stretchEntries_append_slash]
        exact List.append_nil _
      rw [if_pos (Or.inr hslash), course_eq, course_eq (front ++ ['/']), hend,
        isAbsolute_append hempty, List.append_assoc, List.singleton_append,
        stretchEntries_append_slash, List.append_assoc]
    · rw [if_neg (by simp [hempty, hslash]), course_eq, course_eq base, isAbsolute_append hempty,
        stretchEntries_append_slash, List.append_assoc]

/-- An absolute path leads to the same names from everywhere. -/
theorem resolve_of_isAbsolute (h : isAbsolute path = true) (start other : List Name) :
    resolve start path = resolve other path := by
  obtain ⟨rest, rfl⟩ := isAbsolute_iff.1 h
  rw [resolve, resolve, components_cons_slash]
  rfl

/-- **A joined path leads where the path behind leads from where its base leads.** -/
theorem resolve_join (start : List Name) (base path : List Char) :
    resolve start (join base path) = resolve (resolve start base) path := by
  cases h : isAbsolute path with
  | true =>
      rw [join, if_pos h]
      exact resolve_of_isAbsolute h start _
  | false =>
      rw [← foldl_follow_course, course_join h, List.foldl_append, foldl_follow_course,
        ← course_of_relative h, foldl_follow_course]

/-- Paths with one normal form lead to the same names. -/
theorem resolve_eq_of_normalize_eq {other : List Char} (h : normalize path = normalize other)
    (start : List Name) : resolve start path = resolve start other := by
  rw [← resolve_normalize, h, resolve_normalize]

/-- Joining does not tell apart what has one normal form, in front or behind. -/
theorem normalize_join_eq {other next : List Char} (hbase : normalize base = normalize other)
    (hpath : normalize path = normalize next) :
    normalize (join base path) = normalize (join other next) := by
  refine normalize_eq_of_resolve_eq fun start _ => ?_
  calc resolve start (join base path)
      = resolve (resolve start base) path := resolve_join start base path
    _ = resolve (resolve start other) path := by rw [resolve_eq_of_normalize_eq hbase]
    _ = resolve (resolve start other) next := resolve_eq_of_normalize_eq hpath _
    _ = resolve start (join other next) := (resolve_join start other next).symm

/-- **The normal form of a joined path is that of its parts joined in normal form**, whichever of
them is put into normal form first, or both. -/
theorem normalize_join_congr (base path : List Char) :
    normalize (join base path) = normalize (join (normalize base) path) ∧
      normalize (join (normalize base) path) = normalize (join base (normalize path)) ∧
      normalize (normalize path) = normalize path := by
  have hbase : normalize base = normalize (normalize base) := (normalize_normalize base).symm
  have hpath : normalize path = normalize (normalize path) := (normalize_normalize path).symm
  exact ⟨normalize_join_eq hbase rfl, normalize_join_eq hbase.symm hpath, hpath.symm⟩

example : normalize (join "x/..".toList "./../y".toList) = "../y".toList := by decide

/-- The normal form of a path is spelled by the form that leads where the path leads. -/
theorem normalize_eq_text {form : Form}
    (h : ∀ start, (∀ name ∈ start, (Component.name name).IsEntry) →
      resolve start path = form.reach start) : normalize path = form.text := by
  obtain ⟨other, hother⟩ := exists_isFormOf path
  have heq : other = form := Form.eq_of_reach_eq fun start hstart => by
    rw [hother.reach, h start hstart]
  rw [hother.text, heq]

/-! ### Routes -/

/-- The root, if at all, at the beginning, and entries. -/
def IsRoute (route : List Component) : Prop :=
  ∃ entries : List Component, (∀ component ∈ entries, component.IsEntry) ∧
    (route = entries ∨ route = .root :: entries)

/-- The path that a route spells, a dot if there is nothing to spell. -/
def spell : List Component → List Char
  | [] => ['.']
  | first :: rest => ofComponents (first :: rest)

theorem spell_of_ne_nil (h : route ≠ []) : spell route = ofComponents route := by
  cases route with
  | nil => exact absurd rfl h
  | cons first rest => rfl

theorem Form.text_eq_spell (form : Form) : form.text = spell form.components := by
  rw [Form.text]
  cases form.components <;> rfl

theorem Form.isRoute (form : Form) : IsRoute form.components := by
  cases horigin : form.origin with
  | root =>
      exact ⟨_, fun _ => form.isEntry_of_mem_names, Or.inr (form.components_of_root horigin)⟩
  | outer levels => exact ⟨_, fun _ => form.isEntry_of_outer horigin, Or.inl rfl⟩

namespace IsRoute

theorem append (h : IsRoute route) (hentries : ∀ component ∈ entries, component.IsEntry) :
    IsRoute (route ++ entries) := by
  obtain ⟨front, hfront, hroute⟩ := h
  have hall : ∀ component ∈ front ++ entries, component.IsEntry := by
    intro component hmem
    rcases List.mem_append.1 hmem with hmem | hmem
    · exact hfront component hmem
    · exact hentries component hmem
  refine ⟨front ++ entries, hall, ?_⟩
  rcases hroute with rfl | rfl
  · exact Or.inl rfl
  · exact Or.inr rfl

theorem concat (h : IsRoute route) (hentry : component.IsEntry) :
    IsRoute (route ++ [component]) :=
  h.append fun other hother => by rwa [List.mem_singleton.1 hother]

theorem of_append {behind : List Component} (h : IsRoute (route ++ behind)) : IsRoute route := by
  obtain ⟨entries, hentries, hroute⟩ := h
  rcases hroute with hroute | hroute
  · exact ⟨route, fun component hmem => hentries component (by simp [← hroute, hmem]), Or.inl rfl⟩
  · cases route with
    | nil => exact ⟨[], by simp, Or.inl rfl⟩
    | cons first rest =>
        rw [List.cons_append] at hroute
        obtain ⟨rfl, hrest⟩ := List.cons.inj hroute
        exact ⟨rest, fun component hmem => hentries component (by simp [← hrest, hmem]),
          Or.inr rfl⟩

theorem exists_front (h : IsRoute route) :
    ∃ front entries, route = front ++ entries ∧ (front = [] ∨ front = [.root]) ∧
      ∀ component ∈ entries, component.IsEntry := by
  obtain ⟨entries, hentries, rfl | rfl⟩ := h
  · exact ⟨[], route, rfl, Or.inl rfl, hentries⟩
  · exact ⟨[.root], entries, rfl, Or.inr rfl, hentries⟩

theorem components_spell (h : IsRoute route) (hne : route ≠ []) :
    components (spell route) = route := by
  rw [spell_of_ne_nil hne]
  obtain ⟨entries, hentries, rfl | rfl⟩ := h
  · exact (components_ofComponents hentries hne).1
  · exact (components_ofComponents_root hentries).1

theorem isAbsolute_spell (h : IsRoute route) :
    isAbsolute (spell route) = (route.head? == some .root) := by
  cases hroute : route with
  | nil => rfl
  | cons first rest =>
      have hne : route ≠ [] := by simp [hroute]
      rw [← hroute, spell_of_ne_nil hne]
      obtain ⟨entries, hentries, rfl | rfl⟩ := h
      · rw [(components_ofComponents hentries hne).2, hroute]
        have hfirst := (hentries first (by simp [hroute])).ne_root
        simp [hfirst]
      · rw [(components_ofComponents_root hentries).2]
        rfl

end IsRoute

theorem join_spell (hne : route ≠ []) (component : Component) :
    join (spell route) component.text = spell (route ++ [component]) := by
  rw [spell_of_ne_nil hne, spell_of_ne_nil (by simp), ofComponents, ofComponents, extend, extend,
    List.foldl_append]
  rfl

theorem extend_spell (hne : route ≠ []) (more : List Component) :
    extend (spell route) more = spell (route ++ more) := by
  rw [spell_of_ne_nil hne, spell_of_ne_nil (by simp [hne]), ofComponents, ofComponents, extend,
    extend, extend, List.foldl_append]

section Entries

variable (hentries : ∀ component ∈ entries, component.IsEntry)

include hentries

/-- The texts of entries are the stretches of the path that they spell. -/
theorem split_ofComponents (hne : entries ≠ []) :
    Text.split '/' (ofComponents entries) = entries.map Component.text := by
  cases entries with
  | nil => exact absurd rfl hne
  | cons first rest =>
      obtain ⟨hfirst, hrest⟩ := List.forall_mem_cons.1 hentries
      rw [ofComponents_cons hentries, split_append_trail hrest hfirst.2, List.map_cons]

theorem ofComponents_ne_nil (hne : entries ≠ []) : ofComponents entries ≠ [] := by
  intro hnil
  have hread := (components_ofComponents hentries hne).1
  rw [hnil] at hread
  exact hne hread.symm

theorem spell_root_cons : spell (.root :: entries) = '/' :: ofComponents entries := by
  cases entries with
  | nil => rfl
  | cons first rest =>
      rw [spell_of_ne_nil (by simp), ofComponents_root_cons hentries, ofComponents_cons hentries]

theorem getLast?_ofComponents : (ofComponents entries).getLast? ≠ some '/' := by
  rcases List.eq_nil_or_concat' entries with rfl | ⟨front, last, rfl⟩
  · simp [ofComponents, extend]
  · have hlast : last.IsEntry := hentries last (by simp)
    by_cases hfront : front = []
    · have htext : ofComponents (front ++ [last]) = [] ++ last.text := by
        rw [hfront, List.nil_append, ofComponents_cons (by simpa using hlast)]
        simp [trail]
      rw [htext]
      exact hlast.getLast?_append []
    · rw [← spell_of_ne_nil (by simp), ← join_spell hfront, hlast.join_text]
      split
      · exact hlast.getLast?_append _
      · rw [List.append_cons]
        exact hlast.getLast?_append _

end Entries

namespace IsRoute

/-- Only the root ends in a slash. -/
theorem getLast?_spell (h : IsRoute route) :
    (spell route).getLast? = some '/' ↔ route = [.root] := by
  obtain ⟨entries, hentries, rfl | rfl⟩ := h
  · have hroot : route ≠ [.root] := by
      intro hroot
      exact absurd rfl (hentries .root (by simp [hroot])).ne_root
    refine iff_of_false ?_ hroot
    cases route with
    | nil => simp [spell]
    | cons first rest => exact getLast?_ofComponents hentries
  · rw [spell_root_cons hentries]
    cases entries with
    | nil => simp [ofComponents, extend]
    | cons first rest =>
        have hne : ofComponents (first :: rest) ≠ [] := by
          rw [ofComponents_cons hentries]
          simp [(hentries first (by simp)).text_ne_nil]
        rw [List.getLast?_cons_of_ne_nil hne]
        exact iff_of_false (getLast?_ofComponents hentries) (by simp)

theorem spell_ne_nil (h : IsRoute route) : spell route ≠ [] := by
  intro hnil
  by_cases hne : route = []
  · rw [hne] at hnil
    cases hnil
  · have hread := h.components_spell hne
    rw [hnil] at hread
    exact hne hread.symm

theorem spell_append (h : IsRoute route) (hne : route ≠ []) (hroot : route ≠ [.root])
    (hentries : ∀ component ∈ entries, component.IsEntry) :
    spell (route ++ entries) = spell route ++ trail entries := by
  have hlast : (spell route).getLast? ≠ some '/' := fun hlast => hroot (h.getLast?_spell.1 hlast)
  rw [← extend_spell hne, extend_eq_append_trail hentries h.spell_ne_nil hlast]

/-- What stands behind a route is not at the beginning of its path. -/
theorem head?_spell_append (h : IsRoute route) (hne : route ≠ [])
    (hentries : ∀ component ∈ entries, component.IsEntry) :
    (spell (route ++ entries)).head? = (spell route).head? := by
  by_cases hroot : route = [.root]
  · rw [hroot, List.singleton_append, spell_root_cons hentries]
    rfl
  · rw [h.spell_append hne hroot hentries, List.head?_append_of_ne_nil _ h.spell_ne_nil]

end IsRoute

/-! ### Characters -/

section Characters

variable {c : Char}

theorem mem_of_mem_components (h : component ∈ components path) (hc : c ∈ component.text) :
    c ∈ path := by
  have hentry : ∀ stretches ⊆ Text.split '/' path,
      component ∈ stretches.filterMap ofStretch → c ∈ path := by
    intro stretches hpath hmem
    obtain ⟨stretch, hstretch, hstands⟩ := List.mem_filterMap.1 hmem
    rw [text_of_ofStretch hstands] at hc
    exact Text.mem_of_mem_split (hpath hstretch) hc
  cases habsolute : isAbsolute path with
  | true =>
      obtain ⟨rest, rfl⟩ := isAbsolute_iff.1 habsolute
      rw [components_cons_slash] at h
      rcases List.mem_cons.1 h with rfl | h
      · obtain rfl := List.mem_singleton.1 hc
        exact List.mem_cons_self
      · refine hentry _ ?_ h
        rw [Text.split, if_pos rfl]
        exact List.subset_cons_self _ _
  | false =>
      rw [components_of_relative habsolute] at h
      split at h
      · rename_i stretches hsplit
        rcases List.mem_cons.1 h with rfl | h
        · exact Text.mem_of_mem_split (by rw [hsplit]; exact List.mem_cons_self) hc
        · exact hentry _ (by rw [hsplit]; exact List.subset_cons_self _ _) h
      · exact hentry _ (List.Subset.refl _) h

theorem mem_join (hc : c ∈ join base path) : c ∈ base ∨ c ∈ path ∨ c = '/' := by
  unfold join at hc
  split at hc
  · exact Or.inr (Or.inl hc)
  · split at hc
    · rcases List.mem_append.1 hc with hc | hc
      · exact Or.inl hc
      · exact Or.inr (Or.inl hc)
    · rcases List.mem_append.1 hc with hc | hc
      · exact Or.inl hc
      · rcases List.mem_cons.1 hc with hc | hc
        · exact Or.inr (Or.inr hc)
        · exact Or.inr (Or.inl hc)

theorem mem_extend (hc : c ∈ extend base route) :
    c ∈ base ∨ c = '/' ∨ ∃ component ∈ route, c ∈ component.text := by
  induction route generalizing base with
  | nil => exact Or.inl hc
  | cons first rest ih =>
      rcases ih hc with hjoin | hslash | ⟨component, hmem, htext⟩
      · rcases mem_join hjoin with hbase | htext | hslash
        · exact Or.inl hbase
        · exact Or.inr (Or.inr ⟨first, List.mem_cons_self, htext⟩)
        · exact Or.inr (Or.inl hslash)
      · exact Or.inr (Or.inl hslash)
      · exact Or.inr (Or.inr ⟨component, List.mem_cons_of_mem first hmem, htext⟩)

theorem mem_pushNormal {done : List Component} {first : Component}
    (h : component ∈ pushNormal done first) : component ∈ done ∨ component = first := by
  cases first with
  | root => exact Or.inr (List.mem_singleton.1 h)
  | current => exact Or.inl h
  | name name => exact (List.mem_cons.1 h).symm
  | parent =>
      cases done with
      | nil => exact Or.inr (List.mem_singleton.1 h)
      | cons last rest =>
          cases last with
          | name name => exact Or.inl (List.mem_cons_of_mem _ h)
          | root => exact Or.inl h
          | current | parent => exact (List.mem_cons.1 h).symm

theorem mem_foldl_pushNormal {done : List Component}
    (h : component ∈ entries.foldl pushNormal done) : component ∈ done ∨ component ∈ entries := by
  induction entries generalizing done with
  | nil => exact Or.inl h
  | cons first rest ih =>
      rcases ih h with hpushed | hrest
      · rcases mem_pushNormal hpushed with hdone | rfl
        · exact Or.inl hdone
        · exact Or.inr List.mem_cons_self
      · exact Or.inr (List.mem_cons_of_mem first hrest)

/-- **The normal form has no characters of its own**, dots and slashes apart. -/
theorem mem_normalize (hc : c ∈ normalize path) : c ∈ path ∨ c = '.' ∨ c = '/' := by
  unfold normalize at hc
  split at hc
  · exact Or.inr (Or.inl (List.mem_singleton.1 hc))
  · rcases mem_extend hc with hnil | hslash | ⟨component, hmem, htext⟩
    · cases hnil
    · exact Or.inr (Or.inr hslash)
    · rw [normalComponents, List.mem_reverse] at hmem
      rcases mem_foldl_pushNormal hmem with hnil | hcomponent
      · cases hnil
      · exact Or.inl (mem_of_mem_components hcomponent htext)

theorem IsRoute.mem_spell (h : IsRoute route) (hmem : component ∈ route)
    (hc : c ∈ component.text) : c ∈ spell route := by
  rw [← h.components_spell (List.ne_nil_of_mem hmem)] at hmem
  exact mem_of_mem_components hmem hc

end Characters

/-! ### Extending forms -/

namespace Form

/-- A form with more names behind it. -/
def append (form : Form) (names : List Name)
    (h : ∀ name ∈ names, (Component.name name).IsEntry) : Form where
  origin := form.origin
  names := form.names ++ names
  entries := by
    intro name hname
    rcases List.mem_append.1 hname with hmem | hmem
    · exact form.entries name hmem
    · exact h name hmem

variable {form : Form} {names : List Name}
  (h : ∀ name ∈ names, (Component.name name).IsEntry)

theorem components_append :
    (form.append names h).components = form.components ++ names.map .name := by
  simp [components, append]

theorem reach_append (start : List Name) :
    (form.append names h).reach start = form.reach start ++ names := by
  simp [reach, append]

/-- A form that does not lead out of where it begins. -/
theorem origin_of_not_mem (hrelative : form.origin ≠ .root) (hparent : .parent ∉ form.components) :
    form.origin = .outer 0 := by
  cases horigin : form.origin with
  | root => exact absurd horigin hrelative
  | outer levels =>
      cases levels with
      | zero => rfl
      | succ levels =>
          refine absurd ?_ hparent
          simp [components, horigin, Origin.components, List.replicate_succ]

end Form

/-- The names that a path leads down to, if it does not lead out of where it begins. -/
theorem exists_names (hrelative : isAbsolute path = false)
    (hparent : .parent ∉ components (normalize path)) :
    ∃ names : List Name, (∀ name ∈ names, (Component.name name).IsEntry) ∧
      normalize path = spell (names.map .name) ∧ ∀ start, resolve start path = start ++ names := by
  obtain ⟨form, hform⟩ := exists_isFormOf path
  have hroot : form.origin ≠ .root := fun hroot => by
    rw [hform.root.1 hroot] at hrelative
    cases hrelative
  have horigin : form.origin = .outer 0 := by
    refine form.origin_of_not_mem hroot fun hmem => hparent ?_
    rw [hform.text, form.components_text (List.ne_nil_of_mem hmem)]
    exact hmem
  refine ⟨form.names, form.entries, ?_, fun start => ?_⟩
  · rw [hform.text, form.text_eq_spell, Form.components, horigin]
    rfl
  · rw [← hform.reach, Form.reach, horigin, Origin.reach]
    simp

theorem isAbsolute_join_of_relative (h : isAbsolute path = false) :
    isAbsolute (join base path) = isAbsolute base := by
  rw [join, h, if_neg Bool.false_ne_true]
  by_cases hempty : base = []
  · rw [if_pos (Or.inl hempty), hempty, List.nil_append, h]
    rfl
  · split
    · exact isAbsolute_append hempty path
    · exact isAbsolute_append hempty _

/-- **A path that leads down puts its names behind the form of its base.** -/
theorem IsFormOf.append {form : Form} {names : List Name} (hform : IsFormOf form base)
    (hrelative : isAbsolute path = false)
    (hentries : ∀ name ∈ names, (Component.name name).IsEntry)
    (hnames : ∀ start, resolve start path = start ++ names) :
    IsFormOf (form.append names hentries) (join base path) := by
  have hreach : ∀ start,
      (form.append names hentries).reach start = resolve start (join base path) := by
    intro start
    rw [Form.reach_append, hform.reach, resolve_join, hnames]
  refine ⟨normalize_eq_text fun start _ => (hreach start).symm, ?_, hreach⟩
  rw [isAbsolute_join_of_relative hrelative, ← hform.root]
  rfl

theorem normalize_join {form : Form} {names : List Name} (hform : IsFormOf form base)
    (hrelative : isAbsolute path = false)
    (hentries : ∀ name ∈ names, (Component.name name).IsEntry)
    (hnames : ∀ start, resolve start path = start ++ names) :
    normalize (join base path) = spell (form.components ++ names.map .name) := by
  rw [(hform.append hrelative hentries hnames).text, Form.text_eq_spell,
    Form.components_append hentries]

/-- An entry's name is the path of the entry. -/
theorem spell_name {name : Name} (h : (Component.name name).IsEntry) :
    spell [.name name] = name := by
  have hentries : ∀ component ∈ [Component.name name], component.IsEntry := by simpa using h
  rw [spell, ofComponents_cons hentries]
  simp [trail, Component.text]

theorem components_name {name : Name} (h : (Component.name name).IsEntry) :
    components name = [.name name] := by
  have hroute : IsRoute [.name name] := ⟨[.name name], by simpa using h, Or.inl rfl⟩
  have hread := hroute.components_spell (List.cons_ne_nil _ _)
  rwa [spell_name h] at hread

theorem resolve_name {name : Name} (h : (Component.name name).IsEntry) (start : List Name) :
    resolve start name = start ++ [name] := by
  rw [resolve, components_name h]
  rfl

theorem isAbsolute_name {name : Name} (h : (Component.name name).IsEntry) :
    isAbsolute name = false := by
  simpa [Component.text] using h.isAbsolute_append []

end Workbench.Path
