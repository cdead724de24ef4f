/-
The directory that holds all of several paths.

In the order of prefixes, what two lists both begin with is their greatest lower bound: a list is a
prefix of it exactly if it is a prefix of both.  One more path narrows the candidate down to such a
bound, so behind the last path a list is a prefix of the candidate exactly if it is one of every
base.  A list is known by its prefixes; so neither order nor repetition of the paths matter, and the
paths may be taken in two parts.

The candidate is printed in the end, and read again it is the same.  For it is the beginning of the
components of a path, where the root or a dot stands in front of entries if it stands anywhere.
-/
import Workbench.Path.Base
import Workbench.Proofs.Path.Normal

namespace Workbench.Path

/-! ### What lists begin with -/

section Starts

variable {α : Type} {start other : List α} {lists : List (List α)}

/-- The longest list that all of `lists` begin with. -/
structure IsLongestStart (start : List α) (lists : List (List α)) : Prop where
  isStart : ∀ list ∈ lists, start <+: list
  longest : ∀ other, (∀ list ∈ lists, other <+: list) → other <+: start

/-- The longest start is known by its prefixes. -/
theorem isLongestStart_iff :
    IsLongestStart start lists ↔ ∀ other, other <+: start ↔ ∀ list ∈ lists, other <+: list := by
  constructor
  · intro h other
    exact ⟨fun hother list hlist => hother.trans (h.isStart list hlist), h.longest other⟩
  · intro h
    exact ⟨(h start).1 (List.prefix_refl start), fun other => (h other).2⟩

theorem IsLongestStart.unique (h : IsLongestStart start lists)
    (hother : IsLongestStart other lists) : start = other := by
  have hle : start <+: other := hother.longest start h.isStart
  have hge : other <+: start := h.longest other hother.isStart
  exact hle.eq_of_length (Nat.le_antisymm hle.length_le hge.length_le)

/-- **What two lists both begin with is the greatest lower bound of the two.** -/
theorem prefix_sharedStart_iff [DecidableEq α] {left right : List α} :
    start <+: sharedStart left right ↔ start <+: left ∧ start <+: right := by
  induction left generalizing start right with
  | nil =>
      show start <+: [] ↔ start <+: [] ∧ start <+: right
      rw [List.prefix_nil]
      constructor
      · rintro rfl
        exact ⟨rfl, List.nil_prefix⟩
      · exact And.left
  | cons a left ih =>
      cases right with
      | nil =>
          show start <+: [] ↔ start <+: a :: left ∧ start <+: []
          rw [List.prefix_nil]
          constructor
          · rintro rfl
            exact ⟨List.nil_prefix, rfl⟩
          · exact And.right
      | cons b right =>
          cases start with
          | nil => simp
          | cons c start =>
              rw [sharedStart, List.cons_prefix_cons, List.cons_prefix_cons]
              by_cases hab : a = b
              · subst hab
                rw [if_pos rfl, List.cons_prefix_cons, ih]
                exact and_and_left
              · rw [if_neg hab, List.prefix_nil]
                refine iff_of_false (List.cons_ne_nil _ _) ?_
                rintro ⟨⟨rfl, -⟩, ⟨rfl, -⟩⟩
                exact hab rfl

end Starts

/-! ### The candidate -/

variable {path base : List Char} {paths others : List (List Char)} {component : Component}
  {start shared entries : List Component}

/-- Each path narrows the candidate down, and no further than its base. -/
theorem prefix_foldl_sharedStart_iff :
    start <+: paths.foldl (fun shared other => sharedStart shared (baseComponents other)) shared ↔
      start <+: shared ∧ ∀ path ∈ paths, start <+: baseComponents path := by
  induction paths generalizing shared with
  | nil => simp
  | cons path paths ih =>
      rw [List.foldl_cons, ih, prefix_sharedStart_iff, List.forall_mem_cons, and_assoc]

theorem isLongestStart_of_commonComponents (h : commonComponents paths = some shared) :
    IsLongestStart shared (paths.map baseComponents) := by
  cases paths with
  | nil => cases h
  | cons path paths =>
      obtain rfl := Option.some.inj h
      refine isLongestStart_iff.2 fun start => ?_
      rw [prefix_foldl_sharedStart_iff, List.forall_mem_map, List.forall_mem_cons]

/-! ### Printing and reading -/

/-- What a path can be read as: entries, behind the root, behind a dot, or from the beginning. -/
def IsReading (components : List Component) : Prop :=
  ∃ front entries, components = front ++ entries ∧
    (front = [] ∨ front = [.root] ∨ front = [.current]) ∧ ∀ component ∈ entries, component.IsEntry

theorem isReading_components (path : List Char) : IsReading (components path) := by
  have hentries : ∀ stretches ⊆ Text.split '/' path,
      ∀ component ∈ stretches.filterMap ofStretch, component.IsEntry :=
    fun stretches hpath component => isEntry_of_mem_filterMap hpath
  cases habsolute : isAbsolute path with
  | true =>
      obtain ⟨rest, rfl⟩ := isAbsolute_iff.1 habsolute
      rw [components_cons_slash]
      refine ⟨[.root], _, rfl, Or.inr (Or.inl rfl), hentries _ ?_⟩
      rw [Text.split, if_pos rfl]
      exact List.subset_cons_self _ _
  | false =>
      rw [components_of_relative habsolute]
      split
      · rename_i stretches hsplit
        refine ⟨[.current], _, rfl, Or.inr (Or.inr rfl), hentries _ ?_⟩
        rw [hsplit]
        exact List.subset_cons_self _ _
      · exact ⟨[], _, rfl, Or.inl rfl, hentries _ (List.Subset.refl _)⟩

/-- Whatever a reading begins with is a reading. -/
theorem IsReading.of_isPrefix {components : List Component} (h : IsReading components)
    (hstart : start <+: components) : IsReading start := by
  obtain ⟨front, entries, rfl, hfront, hentries⟩ := h
  obtain ⟨rest, hrest⟩ := hstart
  rcases List.append_eq_append_iff.1 hrest with ⟨more, rfl, -⟩ | ⟨more, rfl, rfl⟩
  · refine ⟨start, [], (List.append_nil start).symm, ?_, by simp⟩
    rcases hfront with hfront | hfront | hfront
    · exact Or.inl (List.append_eq_nil_iff.1 hfront).1
    · exact (List.append_eq_singleton_iff.1 hfront).imp And.left fun h => Or.inl h.1
    · exact (List.append_eq_singleton_iff.1 hfront).imp And.left fun h => Or.inr h.1
  · exact ⟨front, more, rfl, hfront, fun component hmem => hentries component (by simp [hmem])⟩

/-- A dot at the beginning is printed and read like an entry. -/
theorem components_ofComponents_current (hentries : ∀ component ∈ entries, component.IsEntry) :
    components (ofComponents (.current :: entries)) = .current :: entries := by
  have hprinted : extend ['.'] entries = ['.'] ++ trail entries :=
    extend_eq_append_trail hentries (by simp) (by simp)
  have hrelative : isAbsolute (['.'] ++ trail entries) = false := rfl
  show components (extend ['.'] entries) = _
  rw [hprinted, components_of_relative hrelative, split_append_trail hentries (by simp)]
  exact congrArg _ (filterMap_ofStretch_text hentries)

/-- **A reading is printed and read again without a change.** -/
theorem IsReading.components_ofComponents {reading : List Component} (h : IsReading reading) :
    components (ofComponents reading) = reading := by
  obtain ⟨front, entries, rfl, rfl | rfl | rfl, hentries⟩ := h
  · by_cases hne : entries = []
    · rw [hne]
      rfl
    · exact (Path.components_ofComponents hentries hne).1
  · exact (components_ofComponents_root hentries).1
  · exact components_ofComponents_current hentries

/-! ### Bases -/

theorem baseComponents_isPrefix (path : List Char) : baseComponents path <+: components path := by
  rw [baseComponents]
  split
  · exact List.prefix_refl _
  · exact List.dropLast_prefix _

theorem commonBase_eq_none : commonBase paths = none ↔ paths = [] := by
  cases paths <;> simp [commonBase, commonComponents]

/-- The common base is what the bases of all paths begin with, as a path. -/
theorem isLongestStart_of_commonBase (h : commonBase paths = some base) :
    IsLongestStart (components base) (paths.map baseComponents) ∧
      ofComponents (components base) = base := by
  obtain ⟨shared, hshared, rfl⟩ := Option.map_eq_some_iff.1 h
  have hlongest := isLongestStart_of_commonComponents hshared
  have hreading : IsReading shared := by
    cases paths with
    | nil => cases hshared
    | cons path paths =>
        have hbase : shared <+: baseComponents path := hlongest.isStart _ (by simp)
        exact (isReading_components path).of_isPrefix (hbase.trans (baseComponents_isPrefix path))
  rw [hreading.components_ofComponents]
  exact ⟨hlongest, rfl⟩

/-- Neither order nor repetition of the paths matter. -/
theorem commonBase_congr (h : ∀ path, path ∈ others ↔ path ∈ paths)
    (hbase : commonBase paths = some base) : commonBase others = some base := by
  cases hother : commonBase others with
  | none =>
      rw [commonBase_eq_none] at hother
      subst hother
      have hnone : paths = [] :=
        List.eq_nil_iff_forall_not_mem.2 fun path hpath => List.not_mem_nil ((h path).2 hpath)
      rw [commonBase_eq_none.2 hnone] at hbase
      cases hbase
  | some other =>
      obtain ⟨hlongest, hprinted⟩ := isLongestStart_of_commonBase hbase
      obtain ⟨hotherLongest, hotherPrinted⟩ := isLongestStart_of_commonBase hother
      have hsame : IsLongestStart (components other) (paths.map baseComponents) := by
        rw [isLongestStart_iff] at hotherLongest ⊢
        intro start
        rw [hotherLongest]
        simp [h]
      rw [← hotherPrinted, hsame.unique hlongest, hprinted]

/-- The paths may be taken in two parts. -/
theorem commonBase_append {other joined : List Char} (hbase : commonBase paths = some base)
    (hother : commonBase others = some other)
    (hjoined : commonBase (paths ++ others) = some joined) :
    IsLongestStart (components joined) [components base, components other] := by
  have hbaseLongest := isLongestStart_iff.1 (isLongestStart_of_commonBase hbase).1
  have hotherLongest := isLongestStart_iff.1 (isLongestStart_of_commonBase hother).1
  have hjoinedLongest := isLongestStart_iff.1 (isLongestStart_of_commonBase hjoined).1
  refine isLongestStart_iff.2 fun start => ?_
  rw [hjoinedLongest, List.map_append, List.forall_mem_append, List.forall_mem_cons,
    List.forall_mem_singleton, hbaseLongest, hotherLongest]

theorem exists_commonBase (hne : paths ≠ []) : ∃ base, commonBase paths = some base :=
  Option.ne_none_iff_exists'.1 fun hnone => hne (commonBase_eq_none.1 hnone)

/-- **The common base is the longest that all bases begin with.**  It is the same for the paths in
any order and however often each is given, and that of two lists of paths together is the longest
that the common bases of the two begin with. -/
theorem commonBase_longest (hne : paths ≠ []) :
    ∃ base, commonBase paths = some base ∧
      IsLongestStart (components base) (paths.map baseComponents) ∧
      (∀ others, (∀ path, path ∈ others ↔ path ∈ paths) → commonBase others = some base) ∧
      ∀ others, others ≠ [] → ∃ other joined, commonBase others = some other ∧
        commonBase (paths ++ others) = some joined ∧
        IsLongestStart (components joined) [components base, components other] := by
  obtain ⟨base, hbase⟩ := exists_commonBase hne
  refine ⟨base, hbase, (isLongestStart_of_commonBase hbase).1,
    fun others h => commonBase_congr h hbase, fun others hothers => ?_⟩
  obtain ⟨other, hother⟩ := exists_commonBase hothers
  have happend : paths ++ others ≠ [] := by simp [hne]
  obtain ⟨joined, hjoined⟩ := exists_commonBase happend
  exact ⟨other, joined, hother, hjoined, commonBase_append hbase hother hjoined⟩

/-- A slash more and a dot between slashes do not hide what is shared. -/
theorem commonBase_longest_slashes :
    ["/a/b/c".toList, "//a/./d".toList] ≠ [] ∧
      commonBase ["/a/b/c".toList, "//a/./d".toList] = some "/a".toList ∧
      IsLongestStart [Component.root, .name ['a']]
        [[.root, .name ['a'], .name ['b']], [.root, .name ['a']]] := by
  have hne : ["/a/b/c".toList, "//a/./d".toList] ≠ [] := List.cons_ne_nil _ _
  have hvalue : commonBase ["/a/b/c".toList, "//a/./d".toList] = some "/a".toList := by decide
  obtain ⟨base, hbase, hlongest, -⟩ := commonBase_longest hne
  obtain rfl := Option.some.inj (hbase.symm.trans hvalue)
  exact ⟨hne, hvalue, hlongest⟩

example : commonBase ["/a/b".toList, "a/b".toList] = some [] := by decide

end Workbench.Path
