/-
How often a path is listed.

The search goes through the entries of a directory one by one, and the entries have different names,
so a path is found twice only if the parts can be matched with its components in two ways: with
`**/a/**/b` both names of `a/a/b` can be the one in the middle.  The number of ways (`ways`) is
counted over the parts and the components alone, without a look at any file, and no path is listed
more often than that.

Two paths are the same if their components are, whatever dots and slashes their texts have between
them.  A part that stands for the directory itself adds no component, so besides the parts for any
depth it is these parts that stand for different numbers of components.  Where at most one part
varies, the number of components says what it stands for, and there is one way at most.
-/
import Workbench.Proofs.Pattern.Depth

namespace Workbench.Pattern

open Workbench.Path (Name Component)

variable {files : Files} {tokens : List Token} {name : Name} {path : List Char}
  {parts : List Part} {start behind : List Component} {component : Component}

/-! ### Ways to match parts with components -/

/-- What is left of the components behind the one that a stretch stands for. -/
def leftByStretch (stretch : List Char) (behind : List Component) : List (List Component) :=
  match Path.ofStretch stretch, behind with
  | none, behind => [behind]
  | some _, [] => []
  | some component, first :: rest => if first = component then [rest] else []

/-- What is left behind a name that the tokens find. -/
def leftByName (tokens : List Token) (behind : List Component) : List (List Component) :=
  match behind with
  | .name name :: rest => if matchesName tokens name then [rest] else []
  | _ => []

/-- What a part for one name can leave of the components. -/
def leftByPart (tokens : List Token) (behind : List Component) : List (List Component) :=
  match literal? tokens with
  | some name => leftByStretch name behind
  | none => (dotEntries tokens).flatMap (leftByStretch · behind) ++ leftByName tokens behind

/-- What any number of directories can leave of the components. -/
def leftByDepths : List Component → List (List Component)
  | .name name :: rest => (.name name :: rest) :: leftByDepths rest
  | behind => [behind]

/-- The number of ways in which the parts can stand for the components.  Adjacent parts for any
depth are one, and the last of them stands for one directory at least. -/
def ways : List Part → List Component → Nat
  | [], behind => if behind = [] then 1 else 0
  | [.depths], behind => if behind ≠ [] ∧ [] ∈ leftByDepths behind then 1 else 0
  | .depths :: .depths :: rest, behind => ways (.depths :: rest) behind
  | .depths :: .name tokens :: rest, behind =>
      ((leftByDepths behind).map (ways (.name tokens :: rest))).sum
  | .name tokens :: rest, behind => ((leftByPart tokens behind).map (ways rest)).sum

theorem ways_afterDepths (parts : List Part) (behind : List Component) :
    ways (.depths :: afterDepths parts) behind = ways (.depths :: parts) behind := by
  induction parts with
  | nil => rfl
  | cons part rest ih =>
      cases part with
      | depths => rw [afterDepths, ih, ways]
      | name tokens => rfl

theorem exists_afterDepths (h : afterDepths parts ≠ []) :
    ∃ tokens more, afterDepths parts = .name tokens :: more := by
  induction parts with
  | nil => exact absurd rfl h
  | cons part rest ih =>
      cases part with
      | depths => exact ih h
      | name tokens => exact ⟨tokens, rest, rfl⟩

/-- A name behind parts for any depth is a directory that they stand for, or what follows. -/
theorem ways_depths_name (rest : List Part) (name : Name) (behind : List Component) :
    ways (.depths :: .name tokens :: rest) (.name name :: behind) =
      ways (.name tokens :: rest) (.name name :: behind) +
        ways (.depths :: .name tokens :: rest) behind := by
  rw [ways, leftByDepths, List.map_cons, List.sum_cons]
  rfl

theorem ways_depths_last (name : Name) (behind : List Component) :
    ways [.depths] (.name name :: behind) =
      if behind = [] then 1 else ways [.depths] behind := by
  cases behind with
  | nil => rfl
  | cons first rest => simp [ways, leftByDepths]

/-! ### Lists of paths with a bound on repetition -/

/-- All paths go on from `start`, and as often as `bound` says at most with the same components. -/
structure Counted (start : List Component) (paths : List (List Char))
    (bound : List Component → Nat) : Prop where
  goOn : ∀ path ∈ paths, start <+: Path.course path
  count_le : ∀ behind, (paths.map Path.course).count (start ++ behind) ≤ bound behind

/-- A bound behind one component, as a bound in front of it. -/
def behindFirst (component : Component) (bound : List Component → Nat) : List Component → Nat
  | first :: rest => if first = component then bound rest else 0
  | [] => 0

theorem behindFirst_of_ne {bound : List Component → Nat} (h : behind.head? ≠ some component) :
    behindFirst component bound behind = 0 := by
  cases behind with
  | nil => rfl
  | cons first rest => exact if_neg (by simpa using h)

/-- Of different names only one is the first component. -/
theorem sum_behindFirst_le {names : List Name} (hdistinct : names.Nodup)
    (bound : List Component → Nat) (behind : List Component) :
    (names.map fun name =>
      behindFirst (.name name) (fun rest => bound (.name name :: rest)) behind).sum ≤
      bound behind := by
  induction names with
  | nil => exact Nat.zero_le _
  | cons name names ih =>
      obtain ⟨hnew, hdistinct⟩ := List.nodup_cons.1 hdistinct
      rw [List.map_cons, List.sum_cons]
      by_cases hhead : behind.head? = some (.name name)
      · have hothers : (names.map fun name =>
            behindFirst (.name name) (fun rest => bound (.name name :: rest)) behind).sum = 0 := by
          refine List.sum_eq_zero fun count hcount => ?_
          obtain ⟨other, hother, rfl⟩ := List.mem_map.1 hcount
          refine behindFirst_of_ne fun hsame => ?_
          rw [hhead] at hsame
          cases hsame
          exact hnew hother
        obtain ⟨rest, rfl⟩ := List.head?_eq_some_iff.1 hhead
        rw [hothers, behindFirst, if_pos rfl, Nat.add_zero]
      · rw [behindFirst_of_ne hhead, Nat.zero_add]
        exact ih hdistinct

namespace Counted

variable {paths more : List (List Char)} {bound other : List Component → Nat}

theorem nil (start : List Component) (bound : List Component → Nat) : Counted start [] bound :=
  ⟨by simp, by simp⟩

theorem mono (h : Counted start paths bound) (hle : ∀ behind, bound behind ≤ other behind) :
    Counted start paths other :=
  ⟨h.goOn, fun behind => Nat.le_trans (h.count_le behind) (hle behind)⟩

theorem append (h : Counted start paths bound) (hmore : Counted start more other) :
    Counted start (paths ++ more) fun behind => bound behind + other behind := by
  refine ⟨fun path hmem => ?_, fun behind => ?_⟩
  · rcases List.mem_append.1 hmem with hmem | hmem
    · exact h.goOn path hmem
    · exact hmore.goOn path hmem
  · rw [List.map_append, List.count_append]
    exact Nat.add_le_add (h.count_le behind) (hmore.count_le behind)

theorem flatMap {α : Type} {as : List α} {found : α → List (List Char)}
    {bound : α → List Component → Nat} (h : ∀ a ∈ as, Counted start (found a) (bound a)) :
    Counted start (as.flatMap found) fun behind => (as.map (bound · behind)).sum := by
  induction as with
  | nil => exact .nil start _
  | cons a as ih =>
      obtain ⟨ha, has⟩ := List.forall_mem_cons.1 h
      rw [List.flatMap_cons]
      refine (ha.append (ih has)).mono fun behind => ?_
      rw [List.map_cons, List.sum_cons]

theorem ite (h : Counted start paths bound) (condition : Bool) :
    Counted start (if condition then paths else []) bound := by
  cases condition with
  | true => exact h
  | false => exact .nil start bound

/-- The path itself is the only way to stay. -/
theorem self (path : List Char) : Counted (Path.course path) [path] (ways []) := by
  refine ⟨by simp, fun behind => ?_⟩
  rw [List.map_singleton, List.count_singleton, ways]
  by_cases hbehind : behind = []
  · simp [hbehind]
  · simp [hbehind]

/-- Paths behind a component are paths from where it stands. -/
theorem behind_component (h : Counted (start ++ [component]) paths bound) :
    Counted start paths (behindFirst component bound) := by
  refine ⟨fun path hmem => (List.prefix_append start [component]).trans (h.goOn path hmem),
    fun behind => ?_⟩
  by_cases hhead : behind.head? = some component
  · obtain ⟨rest, rfl⟩ := List.head?_eq_some_iff.1 hhead
    rw [behindFirst, if_pos rfl, List.append_cons]
    exact h.count_le rest
  · rw [List.count_eq_zero.2 fun hmem => hhead ?_]
    · exact Nat.zero_le _
    · obtain ⟨path, hpath, hcourse⟩ := List.mem_map.1 hmem
      have hgo := h.goOn path hpath
      rw [hcourse, List.prefix_append_right_inj] at hgo
      obtain ⟨rest, rfl⟩ := hgo
      rfl

/-- Paths behind the component of a stretch, if it has one. -/
theorem behind_stretch {stretch : List Char}
    (h : Counted (start ++ (Path.ofStretch stretch).toList) paths bound) :
    Counted start paths fun behind => ((leftByStretch stretch behind).map bound).sum := by
  cases hstretch : Path.ofStretch stretch with
  | none =>
      rw [hstretch, Option.toList_none, List.append_nil] at h
      refine h.mono fun behind => ?_
      simp [leftByStretch, hstretch]
  | some component =>
      rw [hstretch, Option.toList_some] at h
      refine h.behind_component.mono fun behind => ?_
      cases behind with
      | nil => exact Nat.zero_le _
      | cons first rest =>
          by_cases hfirst : first = component
          · simp [behindFirst, leftByStretch, hstretch, hfirst]
          · simp [behindFirst, hfirst]

/-- **Entries with different names have no path in common.** -/
theorem entries {names : List Name} {found : Name → List (List Char)} (hdistinct : names.Nodup)
    (h : ∀ name ∈ names, Counted (start ++ [.name name]) (found name)
      fun behind => bound (.name name :: behind)) :
    Counted start (names.flatMap found) bound :=
  (Counted.flatMap fun name hname => (h name hname).behind_component).mono
    (sum_behindFirst_le hdistinct bound)

end Counted

/-! ### The search -/

theorem course_join_stretch {stretch : List Char} (h : '/' ∉ stretch) (path : List Char) :
    Path.course (Path.join path stretch) =
      Path.course path ++ (Path.ofStretch stretch).toList := by
  rw [Path.course_join (Path.isAbsolute_of_not_mem h), Path.stretchEntries_of_not_mem h]

theorem course_below {stretch : List Char} (h : '/' ∉ stretch) (path : List Char) :
    Path.course (below path stretch) = Path.course path ++ (Path.ofStretch stretch).toList := by
  rw [below]
  split
  · rename_i hhere
    have hnone : Path.course path = [] := by
      rw [isHere, beq_iff_eq] at hhere
      exact Path.course_eq_nil.2 (Or.inr hhere)
    have hstart := course_join_stretch h []
    have hself : Path.join [] stretch = stretch := by
      rw [Path.join]
      split
      · rfl
      · rw [if_pos (Or.inl rfl), List.nil_append]
    rw [hself] at hstart
    rw [hnone, hstart]
    rfl
  · exact course_join_stretch h path

theorem course_below_name (hname : (Component.name name).IsEntry) (path : List Char) :
    Path.course (below path name) = Path.course path ++ [.name name] := by
  have hstretch : Path.ofStretch name = some (.name name) := hname.1
  have hslash : '/' ∉ name := hname.2
  rw [course_below hslash, hstretch]
  rfl

theorem eq_of_matchesName {text : List Char}
    (h : matchesName (text.map .char) name = true) : name = text := by
  induction text generalizing name with
  | nil => simpa [matchesName] using h
  | cons c text ih =>
      cases name with
      | nil => simp [matchesName] at h
      | cons d name =>
          rw [List.map_cons, matchesName_cons (by simp), Token.admits, Bool.and_eq_true,
            beq_iff_eq] at h
          rw [h.1, ih h.2]

/-- The ways in which the first of the components is an entry of a directory. -/
def entryWays : List Part → List Component → Nat
  | .name tokens :: rest, behind => ((leftByName tokens behind).map (ways rest)).sum
  | parts, behind => ways parts behind

theorem entryWays_le (hname : (Component.name name).IsEntry) (parts : List Part)
    (behind : List Component) :
    entryWays parts (.name name :: behind) ≤ ways parts (.name name :: behind) := by
  have hstretch : Path.ofStretch name = some (.name name) := hname.1
  unfold entryWays
  split
  · rename_i tokens rest
    rw [ways, leftByPart]
    cases hliteral : literal? tokens with
    | none => simp
    | some text =>
        rw [leftByName]
        split
        · rename_i hmatches
          rw [literal?_eq_some.1 hliteral] at hmatches
          rw [← eq_of_matchesName hmatches]
          simp [leftByStretch, hstretch]
        · exact Nat.zero_le _
  · exact Nat.le_refl _

/-- **The search finds no path more often than the parts can be matched with it.**  The entries of a
directory are told apart by the next component of what is found there, and what parts for any depth
find is shared out between an entry and what is below it, as the ways are. -/
theorem counted_search (search : Search) (hproper : search.files.root.Proper) (fuel : Nat) :
    (∀ (parts : List Part) (path : List Char), AreCut parts →
      Counted (Path.course path) (search.inside parts path fuel) (ways parts)) ∧
    ∀ (parts : List Part) (name : Name) (path : List Char), AreCut parts →
      (Component.name name).IsEntry →
      Counted (Path.course path) (search.visit parts name path fuel)
        fun behind => entryWays parts (.name name :: behind) := by
  induction fuel with
  | zero => exact ⟨fun parts path _ => .nil _ _, fun parts name path _ _ => .nil _ _⟩
  | succ fuel ih =>
      obtain ⟨hinside, hvisit⟩ := ih
      have hentries : ∀ (parts : List Part) (path : List Char), AreCut parts →
          Counted (Path.course path)
            ((entryNames search.files path).flatMap fun name =>
              search.visit parts name (below path name) fuel) (entryWays parts) := by
        intro parts path hparts
        refine .entries (pairwise_entryNames hproper path).nodup fun name hname => ?_
        have hentry := (isFileName_of_mem_entryNames hproper hname).entry
        rw [← course_below_name hentry]
        exact hvisit parts name _ hparts hentry
      constructor
      · intro parts path hparts
        cases parts with
        | nil =>
            rw [Search.inside, Search.found]
            split
            · exact .nil _ _
            · exact .self path
        | cons part rest =>
            cases part with
            | depths =>
                rw [inside_depths]
                exact hentries _ path hparts
            | name tokens =>
                have hbound : ∀ behind, ways (.name tokens :: rest) behind =
                    ((leftByPart tokens behind).map (ways rest)).sum := fun behind => by rw [ways]
                cases hname : literal? tokens with
                | some name =>
                    have hnext := hinside rest (below path name) hparts.tail
                    rw [course_below (hparts tokens name List.mem_cons_self hname)] at hnext
                    rw [inside_literal hname]
                    refine (hnext.behind_stretch.ite _).mono fun behind => ?_
                    rw [hbound, leftByPart, hname]
                | none =>
                    have hdots : Counted (Path.course path)
                        ((dotEntries tokens).flatMap fun name =>
                          search.inside rest (Path.join path name) fuel)
                        fun behind => ((dotEntries tokens).map fun name =>
                          ((leftByStretch name behind).map (ways rest)).sum).sum := by
                      refine .flatMap fun name hmem => ?_
                      have hslash : '/' ∉ name := by
                        rcases mem_dotEntries hmem with rfl | rfl <;> decide
                      have hnext := hinside rest (Path.join path name) hparts.tail
                      rw [course_join_stretch hslash] at hnext
                      exact hnext.behind_stretch
                    rw [inside_wildcard hname]
                    refine ((hdots.append (hentries _ path hparts)).ite _).mono fun behind => ?_
                    rw [hbound, leftByPart, hname, List.map_append, List.sum_append,
                      List.map_flatMap, List.flatMap, List.sum_flatten, List.map_map]
                    exact Nat.le_refl _
      · intro parts name path hparts hname
        cases parts with
        | nil =>
            rw [Search.visit]
            exact .nil _ _
        | cons part rest =>
            cases part with
            | name tokens =>
                rw [Search.visit]
                by_cases hmatches : matchesName tokens name = true
                · rw [if_pos hmatches]
                  refine (hinside rest path hparts.tail).mono fun behind => ?_
                  rw [entryWays, leftByName, if_pos hmatches]
                  simp
                · rw [if_neg hmatches]
                  exact .nil _ _
            | depths =>
                have hbound : ∀ behind, entryWays (.depths :: rest) behind =
                    ways (.depths :: afterDepths rest) behind :=
                  fun behind => (ways_afterDepths rest behind).symm
                simp only [hbound]
                by_cases hlast : afterDepths rest = []
                · have hself := Counted.self path
                  have hdeeper := hinside [.depths] path (by simp [AreCut])
                  rw [visit_depths_last hlast, hlast]
                  refine ((hself.append hdeeper).ite _).mono fun behind => ?_
                  rw [ways_depths_last]
                  cases behind with
                  | nil => exact Nat.le_refl _
                  | cons first behind => simp [ways]
                · obtain ⟨tokens, more, hmore⟩ := exists_afterDepths hlast
                  have hthrough := hvisit (afterDepths rest) name path hparts.tail.afterDepths hname
                  have hdeeper := hinside (.depths :: afterDepths rest) path
                    hparts.tail.afterDepths.depths
                  rw [visit_depths rfl hlast]
                  refine (hthrough.append (hdeeper.ite _)).mono fun behind => ?_
                  rw [hmore, ways_depths_name]
                  exact Nat.add_le_add_right (entryWays_le hname _ _) _

/-! ### At most one part that varies -/

/-- The tokens find the directory itself, which has no component, and names besides. -/
def varies (tokens : List Token) : Bool :=
  (literal? tokens).isNone && decide (['.'] ∈ dotEntries tokens)

/-- The number of parts that stand for different numbers of components. -/
def variety : List Part → Nat
  | [] => 0
  | [.depths] => 1
  | .depths :: .depths :: rest => variety (.depths :: rest)
  | .depths :: .name tokens :: rest => variety (.name tokens :: rest) + 1
  | .name tokens :: rest => variety rest + if varies tokens then 1 else 0

/-- The number of components that the tokens stand for, unless they vary. -/
def width (tokens : List Token) : Nat :=
  match literal? tokens with
  | some name => (Path.ofStretch name).toList.length
  | none => 1

/-- The number of components that the parts stand for, unless one of them varies. -/
def totalWidth : List Part → Nat
  | [] => 0
  | .depths :: rest => totalWidth rest
  | .name tokens :: rest => width tokens + totalWidth rest

theorem length_of_mem_leftByStretch {stretch : List Char} {left : List Component}
    (h : left ∈ leftByStretch stretch behind) :
    left.length + (Path.ofStretch stretch).toList.length = behind.length := by
  unfold leftByStretch at h
  split at h
  · rename_i hstretch
    rw [List.mem_singleton.1 h, hstretch]
    rfl
  · cases h
  · rename_i hstretch
    split at h
    · rw [List.mem_singleton.1 h, hstretch]
      rfl
    · cases h

theorem length_of_mem_leftByName {left : List Component} (h : left ∈ leftByName tokens behind) :
    left.length + 1 = behind.length := by
  unfold leftByName at h
  split at h
  · split at h
    · rw [List.mem_singleton.1 h]
      rfl
    · cases h
  · cases h

theorem length_of_mem_leftByPart {left : List Component} (hfixed : varies tokens = false)
    (h : left ∈ leftByPart tokens behind) : left.length + width tokens = behind.length := by
  unfold leftByPart at h
  cases hliteral : literal? tokens with
  | some name =>
      rw [hliteral] at h
      rw [width, hliteral]
      exact length_of_mem_leftByStretch h
  | none =>
      rw [hliteral] at h
      rw [width, hliteral]
      have hself : ['.'] ∉ dotEntries tokens := by simpa [varies, hliteral] using hfixed
      rcases List.mem_append.1 h with h | h
      · obtain ⟨name, hname, h⟩ := List.mem_flatMap.1 h
        rcases mem_dotEntries hname with rfl | rfl
        · exact length_of_mem_leftByStretch h
        · exact absurd hname hself
      · exact length_of_mem_leftByName h

theorem dotEntries_sublist (tokens : List Token) :
    (dotEntries tokens).Sublist [['.', '.'], ['.']] := by
  unfold dotEntries
  split
  · exact List.filter_sublist
  · exact List.nil_sublist _

/-- What a part leaves says how many components it takes. -/
theorem nodup_leftByPart (tokens : List Token) (behind : List Component) :
    ((leftByPart tokens behind).map List.length).Nodup := by
  unfold leftByPart
  cases literal? tokens with
  | some name =>
      dsimp only
      unfold leftByStretch
      split
      · exact List.nodup_singleton _
      · exact List.nodup_nil
      · split
        · exact List.nodup_singleton _
        · exact List.nodup_nil
  | none =>
      have hdots := (dotEntries_sublist tokens).flatMap (leftByStretch · behind)
      refine ((hdots.append (List.Sublist.refl _)).map List.length).nodup ?_
      -- the parent and a name take one component, but not the same one
      cases behind with
      | nil => exact List.nodup_singleton _
      | cons first rest =>
          cases first with
          | root | current => exact List.nodup_singleton _
          | parent => simp [leftByStretch, leftByName, Path.ofStretch]
          | name name =>
              rw [leftByName]
              split
              · simp [leftByStretch, Path.ofStretch]
              · exact List.nodup_singleton _

theorem length_le_of_mem_leftByDepths {left : List Component} (h : left ∈ leftByDepths behind) :
    left.length ≤ behind.length := by
  induction behind with
  | nil => simp_all [leftByDepths]
  | cons first rest ih =>
      cases first with
      | name name =>
          rcases List.mem_cons.1 h with rfl | h
          · exact Nat.le_refl _
          · exact Nat.le_succ_of_le (ih h)
      | root | current | parent => rw [List.mem_singleton.1 h]

theorem nodup_leftByDepths (behind : List Component) :
    ((leftByDepths behind).map List.length).Nodup := by
  induction behind with
  | nil => exact List.nodup_singleton _
  | cons first rest ih =>
      cases first with
      | name name =>
          refine List.nodup_cons.2 ⟨fun hmem => ?_, ih⟩
          obtain ⟨left, hleft, hlength⟩ := List.mem_map.1 hmem
          have hle := length_le_of_mem_leftByDepths hleft
          rw [hlength, List.length_cons] at hle
          omega
      | root | current | parent => exact List.nodup_singleton _

/-- Only one of the remainders has the right length. -/
theorem sum_le_one {lefts : List (List Component)} {count : List Component → Nat} {n : Nat}
    (hdistinct : (lefts.map List.length).Nodup) (hone : ∀ left ∈ lefts, count left ≤ 1)
    (hlength : ∀ left ∈ lefts, 0 < count left → left.length = n) :
    (lefts.map count).sum ≤ 1 := by
  induction lefts with
  | nil => exact Nat.zero_le _
  | cons left lefts ih =>
      obtain ⟨hnew, hdistinct⟩ := List.nodup_cons.1 hdistinct
      obtain ⟨hleft, hone⟩ := List.forall_mem_cons.1 hone
      obtain ⟨hthis, hlength⟩ := List.forall_mem_cons.1 hlength
      rw [List.map_cons, List.sum_cons]
      by_cases hpos : 0 < count left
      · have hnone : (lefts.map count).sum = 0 := by
          refine List.sum_eq_zero fun value hvalue => ?_
          obtain ⟨other, hother, rfl⟩ := List.mem_map.1 hvalue
          by_contra hne
          refine hnew (List.mem_map.2 ⟨other, hother, ?_⟩)
          rw [hlength other hother (Nat.pos_of_ne_zero hne), hthis hpos]
        omega
      · have hrest := ih hdistinct hone hlength
        omega

theorem length_of_ways_pos (hfixed : variety parts = 0) (hpos : 0 < ways parts behind) :
    behind.length = totalWidth parts := by
  induction parts generalizing behind with
  | nil =>
      rw [ways] at hpos
      split at hpos
      · rename_i hnil
        rw [hnil]
        rfl
      · cases hpos
  | cons part rest ih =>
      cases part with
      | depths =>
          cases rest with
          | nil => cases hfixed
          | cons second more =>
              cases second with
              | depths =>
                  rw [variety] at hfixed
                  rw [ways] at hpos
                  exact ih hfixed hpos
              | name tokens => cases hfixed
      | name tokens =>
          rw [variety, Nat.add_eq_zero_iff] at hfixed
          have htokens : varies tokens = false := by simpa using hfixed.2
          rw [ways] at hpos
          obtain ⟨count, hcount, hne⟩ : ∃ count ∈ (leftByPart tokens behind).map (ways rest),
              count ≠ 0 := by
            by_contra hnone
            push Not at hnone
            rw [List.sum_eq_zero hnone] at hpos
            cases hpos
          obtain ⟨left, hleft, rfl⟩ := List.mem_map.1 hcount
          have hlength := length_of_mem_leftByPart htokens hleft
          have hrest := ih hfixed.1 (Nat.pos_of_ne_zero hne)
          rw [totalWidth]
          omega

/-- **Where at most one part varies, there is one way at most.** -/
theorem ways_le_one (h : variety parts ≤ 1) (behind : List Component) :
    ways parts behind ≤ 1 := by
  induction parts generalizing behind with
  | nil =>
      rw [ways]
      split <;> omega
  | cons part rest ih =>
      cases part with
      | depths =>
          cases rest with
          | nil =>
              rw [ways]
              split <;> omega
          | cons second more =>
              cases second with
              | depths =>
                  rw [variety] at h
                  rw [ways]
                  exact ih h behind
              | name tokens =>
                  rw [variety] at h
                  rw [ways]
                  exact sum_le_one (nodup_leftByDepths behind) (fun left _ => ih (by omega) left)
                    fun left _ hpos => length_of_ways_pos (by omega) hpos
      | name tokens =>
          rw [variety] at h
          rw [ways]
          refine sum_le_one (n := if varies tokens then totalWidth rest
            else behind.length - width tokens) (nodup_leftByPart tokens behind)
            (fun left _ => ih (by omega) left) fun left hleft hpos => ?_
          cases hvaries : varies tokens with
          | true =>
              rw [hvaries, if_pos rfl] at h
              rw [if_pos rfl]
              exact length_of_ways_pos (by omega) hpos
          | false =>
              have hlength := length_of_mem_leftByPart hvaries hleft
              rw [if_neg Bool.false_ne_true]
              omega

/-! ### The files that a pattern stands for -/

/-- Nothing stands for the root. -/
theorem ways_root (parts : List Part) (behind : List Component) :
    ways parts (.root :: behind) = 0 := by
  have hstretch : ∀ stretch, ∀ left ∈ leftByStretch stretch (.root :: behind),
      left = .root :: behind := by
    intro stretch left hleft
    unfold leftByStretch at hleft
    split at hleft
    · exact List.mem_singleton.1 hleft
    · cases hleft
    · rename_i component first rest hcomponent heq
      obtain ⟨rfl, rfl⟩ := List.cons.inj heq
      have hroot : .root ≠ component := by
        rintro rfl
        unfold Path.ofStretch at hcomponent
        split at hcomponent
        · cases hcomponent
        · split at hcomponent <;> cases hcomponent
      rw [if_neg hroot] at hleft
      cases hleft
  induction parts with
  | nil => rfl
  | cons part rest ih =>
      cases part with
      | depths =>
          cases rest with
          | nil => rfl
          | cons second more =>
              cases second with
              | depths => rw [ways, ih]
              | name tokens => simpa [ways, leftByDepths] using ih
      | name tokens =>
          rw [ways]
          refine List.sum_eq_zero fun count hcount => ?_
          obtain ⟨left, hleft, rfl⟩ := List.mem_map.1 hcount
          have hroot : left = .root :: behind := by
            unfold leftByPart at hleft
            split at hleft
            · exact hstretch _ left hleft
            · rcases List.mem_append.1 hleft with hleft | hleft
              · obtain ⟨name, -, hleft⟩ := List.mem_flatMap.1 hleft
                exact hstretch _ left hleft
              · cases hleft
          rw [hroot, ih]

/-- The text whose parts are matched for a pattern. -/
def matchedText (environment : Environment) (pattern base : List Char) : List Char :=
  expandReferences environment (Path.normalize (Path.join base pattern))

/-- The parts of a text, behind the root if it begins there. -/
def searchedParts (text : List Char) : List Part :=
  (partsOf (if Path.isAbsolute text then text.drop 1 else text)).getD []

theorem counted_matchingPaths (hproper : files.root.Proper) (text : List Char) :
    Counted (if Path.isAbsolute text then [.root] else []) (matchingPaths files text)
      (ways (searchedParts text)) := by
  have hstart : Path.course (if Path.isAbsolute text then ['/'] else ['.']) =
      if Path.isAbsolute text then [.root] else [] := by
    split
    · decide
    · decide
  unfold matchingPaths searchedParts
  dsimp only
  cases hparts : partsOf (if Path.isAbsolute text then text.drop 1 else text) with
  | none => exact .nil _ _
  | some parts =>
      rw [← hstart]
      exact (counted_search _ hproper _).1 parts _ (areCut_of_partsOf hparts)

theorem count_matchingPaths_le (hproper : files.root.Proper) (text path : List Char) :
    ((matchingPaths files text).map Path.components).count (Path.components path) ≤
      ways (searchedParts text) (Path.stretchEntries path) := by
  have hcounted := counted_matchingPaths hproper text
  have hcourse : ((matchingPaths files text).map Path.components).count (Path.components path) ≤
      ((matchingPaths files text).map Path.course).count (Path.course path) := by
    have hmap : (matchingPaths files text).map Path.course =
        ((matchingPaths files text).map Path.components).map Path.withoutCurrent := by
      rw [List.map_map]
      rfl
    rw [hmap]
    exact List.count_le_count_map
  refine Nat.le_trans hcourse ?_
  rw [Path.course_eq]
  cases htext : Path.isAbsolute text with
  | true =>
      rw [htext, if_pos rfl] at hcounted
      cases hpath : Path.isAbsolute path with
      | true => exact hcounted.count_le _
      | false =>
          -- a relative path does not begin at the root
          refine Nat.le_trans (Nat.le_of_eq (List.count_eq_zero.2 fun hmem => ?_)) (Nat.zero_le _)
          obtain ⟨other, hother, heq⟩ := List.mem_map.1 hmem
          have hroot := (hcounted.goOn other hother).subset List.mem_cons_self
          rw [heq] at hroot
          exact absurd rfl (Path.isEntry_of_mem_stretchEntries hroot).ne_root
  | false =>
      rw [htext, if_neg Bool.false_ne_true] at hcounted
      cases hpath : Path.isAbsolute path with
      | true =>
          have hnone := hcounted.count_le (.root :: Path.stretchEntries path)
          rw [ways_root] at hnone
          exact Nat.le_trans hnone (Nat.zero_le _)
      | false => exact hcounted.count_le _

example : ways (searchedParts "/**/a/**/b".toList) (Path.stretchEntries "/a/a/b".toList) = 2 := by
  cbv

/-- **How often a path is listed**: not more often than its components can be divided among the
parts, and so only once where at most one part varies. -/
theorem expand_repetition (hproper : files.root.Proper) (environment : Environment)
    (pattern base : List Char) :
    (∀ path,
      ((expand files environment pattern base).map Path.components).count (Path.components path) ≤
        ways (searchedParts (matchedText environment pattern base)) (Path.stretchEntries path)) ∧
    (variety (searchedParts (matchedText environment pattern base)) ≤ 1 →
      ((expand files environment pattern base).map Path.components).Nodup) := by
  have hcount := count_matchingPaths_le hproper (matchedText environment pattern base)
  refine ⟨hcount, fun hvariety => List.nodup_iff_count_le_one.2 fun components => ?_⟩
  by_cases hmem : components ∈ (expand files environment pattern base).map Path.components
  · obtain ⟨path, -, rfl⟩ := List.mem_map.1 hmem
    exact Nat.le_trans (hcount path) (ways_le_one hvariety _)
  · rw [List.count_eq_zero.2 hmem]
    exact Nat.zero_le 1

/-- Two directories of one name, one in the other, and a file. -/
def nested : Files where
  root := .directory true [("a".toList, .directory true [("a".toList, .directory true [
    ("b".toList, .file [] 0o644)])])]
  here := []

theorem proper_nested : nested.root.Proper := by
  have hinner : (Node.directory true [("b".toList, .file [] 0o644)]).Proper :=
    .directory (by decide) (by decide) (by simpa using Node.Proper.file)
  have houter : (Node.directory true [
      ("a".toList, .directory true [("b".toList, .file [] 0o644)])]).Proper :=
    .directory (by decide) (by decide) (by simpa using hinner)
  exact .directory (by decide) (by decide) (by simpa using houter)

theorem expand_repetition_nested :
    expand nested (.ofPairs []) "a/**/b".toList "/".toList = ["/a/a/b".toList] ∧
      ((expand nested (.ofPairs []) "a/**/b".toList "/".toList).map Path.components).Nodup := by
  have hvariety :
      variety (searchedParts (matchedText (.ofPairs []) "a/**/b".toList "/".toList)) = 1 := by
    cbv
  exact ⟨by cbv, (expand_repetition proper_nested (.ofPairs []) _ _).2 (Nat.le_of_eq hvariety)⟩

/-- **A file is listed twice** where either of two directories can be the one in the middle, or
where either of two parts can stand for the directory itself. -/
theorem expand_repeats_nested :
    nested.root.Proper ∧
      expand nested (.ofPairs []) "**/a/**/b".toList "/".toList =
        ["/a/a/b".toList, "/a/a/b".toList] ∧
      expand nested (.ofPairs []) "a/a/.*/.*".toList "/".toList =
        ["/a/a/../..".toList, "/a/a/../.".toList, "/a/a/./..".toList, "/a/a/./.".toList] ∧
      Path.components "/a/a/../.".toList = Path.components "/a/a/./..".toList := by
  refine ⟨proper_nested, ?_, ?_, by decide⟩
  · cbv
  · cbv

end Workbench.Pattern
