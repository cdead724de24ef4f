/-
What a change does not reach.

A change of one element shows in another only if the first can be reached from the second by steps to
a child.  Where it cannot, every cell that an answer about the other depends on is as it was: its own
cell, those of its children, which lists of values look at, and all cells below it, which its written
forms are made of (`sameAnswers_of_apart`).

The tail of an element is written by its parents.  In the written forms of the element itself it does
not occur, and without cycles the element is not among the cells below it (`view_setTail`).
-/
import Mathlib
import Workbench.Proofs.Xml.Acyclic
import Workbench.Proofs.Xml.Reformat

namespace Workbench.Xml

namespace Store

variable {store : Store} {action : Action} {x y : Ref}

/-- What is asked about an element has the same answers in two stores. -/
structure SameAnswers (store later : Store) (ref : Ref) (cell : Cell) (element : Element) :
    Prop where
  /-- The tree below the element, of which both written forms are made. -/
  before : store.Unfolds ref element
  after : later.Unfolds ref element
  /-- Its fields and its children. -/
  kept : later.get? ref = some cell
  findAll : ∀ tag, later.findAll cell tag = store.findAll cell tag
  /-- What is found has the same written forms, too. -/
  found : ∀ tag, ∀ child ∈ store.findAll cell tag, ∃ form,
    store.Unfolds child form ∧ later.Unfolds child form
  valueList : ∀ tag names, later.valueList cell tag names = store.valueList cell tag names
  options : later.options cell = store.options cell

/-! ### Cells out of reach -/

theorem lt_of_reaches (hclosed : store.Closed) (hlt : y < store.next) (h : store.Reaches y x) :
    x < store.next := by
  cases h with
  | refl => exact hlt
  | tail _ hchild => exact hclosed _ _ hchild

theorem next_after_of_target (htarget : action.target? = some x) :
    (store.after action).next = store.next := by
  rcases store.after_cases action with ⟨hnone, -⟩ | ⟨ref, f, -, -, hafter, -⟩ | ⟨ref, child, rfl⟩
  · rw [hnone] at htarget
    cases htarget
  · rw [hafter, next_update]
  · exact next_update _ _ _

/-- What cannot reach the target reaches none but unchanged cells. -/
theorem get?_after_of_reaches (hclosed : store.Closed) (htarget : action.target? = some x)
    (hlt : y < store.next) (hapart : ¬ store.Reaches y x) :
    ∀ other, store.Reaches y other → (store.after action).get? other = store.get? other := by
  intro other hother
  refine get?_after_of_ne (lt_of_reaches hclosed hlt hother) ?_
  rw [htarget]
  intro heq
  rw [Option.some.inj heq] at hapart
  exact hapart hother

/-- **What cannot reach the target is unfolded as before.** -/
theorem view_after_of_apart (hclosed : store.Closed) (htarget : action.target? = some x)
    (hlt : y < store.next) (hapart : ¬ store.Reaches y x) :
    (store.after action).view y = store.view y := by
  have hsize : (store.after action).cells.length = store.cells.length :=
    next_after_of_target htarget
  rw [view, view, hsize]
  exact tree?_congr (get?_after_of_reaches hclosed htarget hlt hapart)

/-! ### Answers about children -/

theorem findAll_congr {later : Store} {cell : Cell}
    (h : ∀ child ∈ cell.children, later.get? child = store.get? child) (tag : String) :
    later.findAll cell tag = store.findAll cell tag := by
  refine List.filter_congr fun child hchild => ?_
  rw [h child hchild]

theorem valueList_congr {later : Store} {cell : Cell}
    (h : ∀ child ∈ cell.children, later.get? child = store.get? child) (tag : String)
    (names : List String) : later.valueList cell tag names = store.valueList cell tag names := by
  have hcells : cell.children.filterMap later.get? = cell.children.filterMap store.get? :=
    List.filterMap_congr h
  rw [valueList, valueList, hcells]

/-- **A change of one element is not seen from another that cannot reach it.** -/
theorem sameAnswers_of_apart (hclosed : store.Closed) (hacyclic : store.Acyclic) {cell : Cell}
    (hcell : store.get? y = some cell) (htarget : action.target? = some x)
    (hapart : ¬ store.Reaches y x) :
    ∃ element, store.SameAnswers (store.after action) y cell element := by
  have hlt := lt_of_get? hcell
  have hkept := get?_after_of_reaches hclosed htarget hlt hapart
  have hchildren : ∀ child ∈ cell.children,
      (store.after action).get? child = store.get? child := fun child hchild =>
    hkept child (.single (child_of_mem hcell hchild))
  have hunfolds : ∀ ref, store.Reaches y ref →
      ∃ form, store.Unfolds ref form ∧ (store.after action).Unfolds ref form := by
    intro ref href
    have hltRef := lt_of_reaches hclosed hlt href
    obtain ⟨form, hform⟩ := exists_unfolds hclosed hacyclic hltRef
    have hview := view_after_of_apart hclosed htarget hltRef fun hx => hapart (href.trans hx)
    exact ⟨form, hform, unfolds_of_view (hview.trans hform.view)⟩
  obtain ⟨element, hbefore, hafter⟩ := hunfolds y .refl
  refine ⟨element, hbefore, hafter, (hkept y .refl).trans hcell, findAll_congr hchildren, ?_,
    valueList_congr hchildren, valueList_congr hchildren "option" ["name"]⟩
  intro tag child hchild
  exact hunfolds child (.single (child_of_mem hcell (List.mem_filter.1 hchild).1))

/-! ### Tails -/

/-- A new tail changes nothing about the element but its tail. -/
theorem view_setTail (hclosed : store.Closed) (hacyclic : store.Acyclic) (hlt : x < store.next)
    (tail : Option String) {element : Element} (h : store.view x = some element) :
    (store.after (.setTail x tail)).view x = some { element with tail := tail } := by
  obtain ⟨cell, hcell⟩ := get?_of_lt hlt
  have hchanged : (store.after (.setTail x tail)).get? x = some { cell with tail := tail } := by
    rw [after, putTail, get?_update, hcell]
    rfl
  have hsize : (store.after (.setTail x tail)).cells.length = store.cells.length :=
    next_after_of_target rfl
  obtain ⟨depth, hdepth⟩ := Nat.exists_eq_succ_of_ne_zero (Nat.ne_of_gt (Nat.zero_lt_of_lt hlt))
  -- The element cannot be reached from its children, so these are unfolded as before.
  have hchildren : ∀ child ∈ cell.children,
      (store.after (.setTail x tail)).tree? depth child = store.tree? depth child := by
    intro child hmem
    have hchild := child_of_mem hcell hmem
    refine tree?_congr (get?_after_of_reaches hclosed rfl (hclosed x child hchild) ?_)
    exact fun hback => hacyclic x (.head' hchild hback)
  rw [view, show store.cells.length = depth + 1 from hdepth, tree?_succ hcell] at h
  rw [view, hsize, show store.cells.length = depth + 1 from hdepth, tree?_succ hchanged,
    mapM_congr hchildren]
  obtain ⟨children, hall, rfl⟩ := Option.map_eq_some_iff.1 h
  rw [hall]
  rfl

/-- **Answers about an element depend on what can be reached from it, tails excepted.**  A change of
one element is not seen from another that cannot reach it, and a new tail is not seen in the written
forms of the element itself. -/
theorem answers_out_of_reach (hclosed : store.Closed) (hacyclic : store.Acyclic) :
    (∀ x y cell action, store.get? y = some cell → ¬ store.Reaches y x →
      action.target? = some x →
        ∃ element, store.SameAnswers (store.after action) y cell element) ∧
      ∀ x tail, x < store.next → ∃ element changed, store.view x = some element ∧
        (store.after (.setTail x tail)).view x = some changed ∧
        changed.compact = element.compact ∧ changed.pretty = element.pretty := by
  refine ⟨?_, ?_⟩
  · intro x y cell action hcell hapart htarget
    exact sameAnswers_of_apart hclosed hacyclic hcell htarget hapart
  · intro x tail hlt
    obtain ⟨element, helement⟩ := exists_unfolds hclosed hacyclic hlt
    refine ⟨element, { element with tail := tail }, helement.view,
      view_setTail hclosed hacyclic hlt tail helement.view, ?_, ?_⟩
    · exact congrArg String.ofList (compactText_withTail element tail)
    · exact congrArg (fun text => String.ofList (declaration ++ text))
        (indentedText_withTail 0 element tail)

/-- A cycle is closed through an element that shares its child with the one asked about. -/
theorem answers_out_of_reach_shared :
    (empty.run shared).Closed ∧ (empty.run shared).Acyclic ∧ ¬ (empty.run shared).Reaches 0 2 ∧
      (∃ cell element,
        (empty.run shared).SameAnswers ((empty.run shared).after (.append 2 2)) 0 cell element) ∧
      ∃ element changed, (empty.run shared).view 1 = some element ∧
        ((empty.run shared).after (.setTail 1 (some "t"))).view 1 = some changed ∧
        changed.compact = element.compact ∧ changed.pretty = element.pretty := by
  obtain ⟨hclosed, hacyclic⟩ := sound_run sound_empty permits_shared
  have hapart : ¬ (empty.run shared).Reaches 0 2 := by
    refine not_reaches rfl (by decide) (List.forall_mem_singleton.2 ?_)
    exact not_reaches rfl (by decide) (List.forall_mem_nil _)
  obtain ⟨hframe, htail⟩ := answers_out_of_reach hclosed hacyclic
  exact ⟨hclosed, hacyclic, hapart, ⟨_, hframe 2 0 _ (.append 2 2) rfl hapart rfl⟩,
    htail 1 (some "t") (by decide)⟩

end Store

end Workbench.Xml
