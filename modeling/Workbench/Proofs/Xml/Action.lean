/-
What can be done with shared elements.

An action is one thing that is done with the elements of a store: it makes an element, looks one up,
or changes one.  Whatever it is, it comes to one of three things (`after_cases`): cells are added at
the end, the fields of one cell change and its children stay, or one cell gets one more child.

A copy of an element is a cell of its own that refers to the same children.  So what both say of
their children stays the same until one of them gets a child more, whatever happens to the children
themselves, and what is done to one of the two cells is not done to the other.
-/
import Workbench.Proofs.Xml.Tree
import Workbench.Xml.Session

namespace Workbench.Xml

/-- One thing that is done with shared elements. -/
inductive Action
  /-- Read a document and add its root. -/
  | parse (document : String)
  | new (tag : String) (attributes : Attributes) (text : Option String)
  /-- Add a copy that shares the children. -/
  | copy (el : Ref)
  | child (el : Ref) (index : Nat)
  | findAll (el : Ref) (tag : String)
  | set (el : Ref) (name value : String)
  | setText (el : Ref) (text : Option String)
  | setTail (el : Ref) (tail : Option String)
  | setTag (el : Ref) (tag : String)
  | append (el last : Ref)
deriving DecidableEq, Repr

namespace Action

/-- The element that an action changes, if it changes one. -/
def target? : Action → Option Ref
  | .set el _ _ | .setText el _ | .setTail el _ | .setTag el _ | .append el _ => some el
  | .parse _ | .new _ _ _ | .copy _ | .child _ _ | .findAll _ _ => none

/-- The element that an action gives a child, if it gives one. -/
def parent? : Action → Option Ref
  | .append el _ => some el
  | _ => none

/-- The elements that an action is about. -/
def refs : Action → List Ref
  | .parse _ | .new _ _ _ => []
  | .copy el | .child el _ | .findAll el _ => [el]
  | .set el _ _ | .setText el _ | .setTail el _ | .setTag el _ => [el]
  | .append el last => [el, last]

end Action

namespace Store

/-- The elements after an action.  A document that cannot be read adds nothing, and looking up
changes nothing. -/
def after (store : Store) : Action → Store
  | .parse document =>
      match read document with
      | .ok element => (store.add element).2
      | .error _ => store
  | .new tag attributes text =>
      store.push (Cell.leaf { Fields.plain tag (Session.attributesOf attributes) with text := text })
  | .copy el => store.copy ((store.get? el).getD default)
  | .child _ _ => store
  | .findAll _ _ => store
  | .set el name value => store.putAttribute el name value
  | .setText el text => store.putText el text
  | .setTail el tail => store.putTail el tail
  | .setTag el tag => store.putTag el tag
  | .append el last => store.append el last

def run (store : Store) : List Action → Store
  | [] => store
  | action :: actions => (store.after action).run actions

/-! ### Cells -/

theorem get?_of_lt {store : Store} {ref : Ref} (h : ref < store.next) :
    ∃ cell, store.get? ref = some cell :=
  ⟨store.cells[ref], List.getElem?_eq_getElem h⟩

theorem lt_of_get? {store : Store} {ref : Ref} {cell : Cell} (h : store.get? ref = some cell) :
    ref < store.next :=
  (List.getElem?_eq_some_iff.1 h).1

theorem next_push (store : Store) (cell : Cell) : (store.push cell).next = store.next + 1 := by
  rw [next, push, List.length_append]
  rfl

theorem get?_push (store : Store) (cell : Cell) : (store.push cell).get? store.next = some cell :=
  List.getElem?_concat_length

theorem next_update (store : Store) (ref : Ref) (f : Cell → Cell) :
    (store.update ref f).next = store.next :=
  List.length_modify f store.cells ref

theorem get?_update (store : Store) (ref : Ref) (f : Cell → Cell) :
    (store.update ref f).get? ref = (store.get? ref).map f :=
  List.getElem?_modify_eq f ref store.cells

theorem get?_update_of_ne {store : Store} {ref other : Ref} (f : Cell → Cell) (h : ref ≠ other) :
    (store.update ref f).get? other = store.get? other :=
  List.getElem?_modify_ne f store.cells h

/-! ### What has been added

An element is added children first, so a new cell refers to cells before it only. -/

/-- A store that goes on with cells that refer to cells before them. -/
structure Grown (store later : Store) : Prop where
  kept : store.cells <+: later.cells
  fresh : ∀ ref cell, store.next ≤ ref → later.get? ref = some cell →
    ∀ child ∈ cell.children, child < ref

theorem get?_of_kept {store later : Store} (h : store.cells <+: later.cells) {ref : Ref}
    (hlt : ref < store.next) : later.get? ref = store.get? ref := by
  obtain ⟨more, hmore⟩ := h
  rw [get?, ← hmore]
  exact List.getElem?_append_left hlt

theorem grown_refl (store : Store) : Grown store store := by
  refine ⟨List.prefix_rfl, fun ref cell hle hcell => ?_⟩
  exact absurd (lt_of_get? hcell) (Nat.not_lt.2 hle)

theorem Grown.next_le {store later : Store} (h : Grown store later) : store.next ≤ later.next :=
  h.kept.length_le

theorem Grown.trans {store later last : Store} (h : Grown store later) (hmore : Grown later last) :
    Grown store last := by
  refine ⟨h.kept.trans hmore.kept, fun ref cell hle hcell => ?_⟩
  by_cases hlt : ref < later.next
  · rw [get?_of_kept hmore.kept hlt] at hcell
    exact h.fresh ref cell hle hcell
  · exact hmore.fresh ref cell (Nat.le_of_not_lt hlt) hcell

theorem grown_push {store : Store} {cell : Cell} (h : ∀ child ∈ cell.children, child < store.next) :
    Grown store (store.push cell) := by
  refine ⟨List.prefix_append _ _, fun ref found hle hfound => ?_⟩
  have hlt := lt_of_get? hfound
  rw [next_push] at hlt
  have href : ref = store.next := Nat.le_antisymm (Nat.lt_succ_iff.1 hlt) hle
  rw [href, get?_push] at hfound
  cases hfound
  rw [href]
  exact h

/-- An element that is added finds its place among cells that are new. -/
def AddsWell (element : Element) : Prop :=
  ∀ store : Store, Grown store (store.add element).2 ∧
    (store.add element).1 < (store.add element).2.next

theorem addAll_grown {children : List Element} (h : ∀ child ∈ children, AddsWell child) :
    ∀ store : Store, Grown store (store.addAll children).2 ∧
      ∀ ref ∈ (store.addAll children).1, ref < (store.addAll children).2.next := by
  induction children with
  | nil =>
      intro store
      exact ⟨grown_refl store, nofun⟩
  | cons child children ih =>
      intro store
      obtain ⟨hfirst, hplace⟩ := h child (by simp) store
      obtain ⟨hothers, hplaces⟩ := ih (fun other hother => h other (by simp [hother]))
        (store.add child).2
      rw [addAll]
      exact ⟨hfirst.trans hothers,
        List.forall_mem_cons.2 ⟨Nat.lt_of_lt_of_le hplace hothers.next_le, hplaces⟩⟩

theorem addsWell (element : Element) : AddsWell element := by
  induction element using Element.treeInduction with
  | mk fields children ih =>
      intro store
      obtain ⟨hgrown, hplaces⟩ := addAll_grown ih store
      rw [add]
      refine ⟨hgrown.trans (grown_push hplaces), ?_⟩
      rw [next_push]
      exact Nat.lt_succ_self _

/-! ### What one action can do -/

/-- **An action adds cells, changes the fields of one cell, or gives one cell a child.** -/
theorem after_cases (store : Store) (action : Action) :
    (action.target? = none ∧ store.cells <+: (store.after action).cells) ∨
      (∃ ref f, action.target? = some ref ∧ action.parent? = none ∧
        store.after action = store.update ref f ∧ ∀ cell, (f cell).children = cell.children) ∨
      ∃ ref child, action = .append ref child := by
  cases action with
  | parse document =>
      refine Or.inl ⟨rfl, ?_⟩
      rw [after]
      split
      · rename_i element _
        exact (addsWell element store).1.kept
      · exact List.prefix_rfl
  | new _ _ _ | copy _ => exact Or.inl ⟨rfl, List.prefix_append _ _⟩
  | child _ _ | findAll _ _ => exact Or.inl ⟨rfl, List.prefix_rfl⟩
  | set el _ _ | setText el _ | setTail el _ | setTag el _ =>
      exact Or.inr (Or.inl ⟨el, _, rfl, rfl, rfl, fun _ => rfl⟩)
  | append ref child => exact Or.inr (Or.inr ⟨ref, child, rfl⟩)

theorem next_le_after (store : Store) (action : Action) :
    store.next ≤ (store.after action).next := by
  rcases store.after_cases action with ⟨-, hkept⟩ | ⟨ref, f, -, -, hafter, -⟩ | ⟨ref, child, rfl⟩
  · exact hkept.length_le
  · exact Nat.le_of_eq (by rw [hafter, next_update])
  · exact Nat.le_of_eq (next_update _ _ _).symm

/-- **An action leaves every cell but its target as it is.** -/
theorem get?_after_of_ne {store : Store} {action : Action} {ref : Ref} (hlt : ref < store.next)
    (h : action.target? ≠ some ref) : (store.after action).get? ref = store.get? ref := by
  rcases store.after_cases action with ⟨-, hkept⟩ | ⟨el, f, htarget, -, hafter, -⟩ | ⟨el, child, rfl⟩
  · exact get?_of_kept hkept hlt
  · rw [hafter]
    refine get?_update_of_ne f ?_
    rintro rfl
    exact h htarget
  · refine get?_update_of_ne _ ?_
    rintro rfl
    exact h rfl

theorem get?_after_of_target {store : Store} {action : Action} {el ref : Ref} {cell : Cell}
    (htarget : action.target? = some el) (hne : el ≠ ref) (hcell : store.get? ref = some cell) :
    (store.after action).get? ref = some cell := by
  refine (get?_after_of_ne (lt_of_get? hcell) ?_).trans hcell
  rw [htarget]
  intro heq
  exact hne (Option.some.inj heq)

theorem children_after {store : Store} {action : Action} {ref : Ref} {cell changed : Cell}
    (h : action.parent? ≠ some ref) (hcell : store.get? ref = some cell)
    (hchanged : (store.after action).get? ref = some changed) :
    changed.children = cell.children := by
  by_cases htarget : action.target? = some ref
  · rcases store.after_cases action with ⟨hnone, -⟩ | ⟨el, f, hel, -, hafter, hf⟩ | ⟨el, child, rfl⟩
    · rw [hnone] at htarget
      cases htarget
    · rw [htarget] at hel
      cases hel
      rw [hafter, get?_update, hcell] at hchanged
      cases hchanged
      exact hf cell
    · exact absurd htarget h
  · rw [get?_after_of_ne (lt_of_get? hcell) htarget, hcell] at hchanged
    cases hchanged
    rfl

/-! ### What a run can do -/

theorem next_le_run (actions : List Action) :
    ∀ store : Store, store.next ≤ (store.run actions).next := by
  induction actions with
  | nil =>
      intro store
      exact Nat.le_refl _
  | cons action actions ih =>
      intro store
      exact Nat.le_trans (store.next_le_after action) (ih _)

theorem exists_get?_run {store : Store} {ref : Ref} {cell : Cell} (actions : List Action)
    (hcell : store.get? ref = some cell) : ∃ changed, (store.run actions).get? ref = some changed :=
  get?_of_lt (Nat.lt_of_lt_of_le (lt_of_get? hcell) (next_le_run actions store))

theorem children_run {ref : Ref} {actions : List Action}
    (h : ∀ action ∈ actions, action.parent? ≠ some ref) :
    ∀ {store : Store} {cell changed : Cell}, store.get? ref = some cell →
      (store.run actions).get? ref = some changed → changed.children = cell.children := by
  induction actions with
  | nil =>
      intro store cell changed hcell hchanged
      rw [run, hcell] at hchanged
      cases hchanged
      rfl
  | cons action actions ih =>
      intro store cell changed hcell hchanged
      obtain ⟨hfirst, hrest⟩ := List.forall_mem_cons.1 h
      obtain ⟨next, hnext⟩ :=
        get?_of_lt (Nat.lt_of_lt_of_le (lt_of_get? hcell) (store.next_le_after action))
      exact (ih hrest hnext hchanged).trans (children_after hfirst hcell hnext)

/-! ### Copies -/

/-- Two elements about whose children everything is answered in the same way. -/
structure SameChildren (store : Store) (left right : Cell) : Prop where
  children : left.children = right.children
  findAll : ∀ tag, store.findAll left tag = store.findAll right tag
  valueList : ∀ tag names, store.valueList left tag names = store.valueList right tag names
  options : store.options left = store.options right

theorem sameChildren_of_eq {left right : Cell} (h : left.children = right.children)
    (store : Store) : store.SameChildren left right := by
  refine ⟨h, fun tag => ?_, fun tag names => ?_, ?_⟩
  · rw [findAll, findAll, h]
  · rw [valueList, valueList, h]
  · rw [options, options, valueList, valueList, h]

theorem exists_copy {store : Store} {e : Ref} (he : e < store.next) :
    ∃ cell copied, (store.after (.copy e)).get? e = some cell ∧
      (store.after (.copy e)).get? store.next = some copied ∧ copied.children = cell.children := by
  obtain ⟨cell, hcell⟩ := get?_of_lt he
  have hkept : (Action.copy e).target? ≠ some e := nofun
  refine ⟨cell, ⟨Fields.plain cell.tag cell.attributes, cell.children⟩,
    (get?_after_of_ne he hkept).trans hcell, ?_, rfl⟩
  rw [after, hcell]
  exact get?_push _ _

/-- **A copy shares the children and nothing else.**  As long as neither of the two is given a child,
both have the same children, whatever is done to these, so the same is found and listed for both;
and at any time what changes one of the two leaves the other as it is. -/
theorem copy_shares_children {store : Store} {e : Ref} (he : e < store.next)
    (actions : List Action) :
    let later := (store.after (.copy e)).run actions
    ∃ left right, later.get? e = some left ∧ later.get? store.next = some right ∧
      ((∀ action ∈ actions, action.parent? ≠ some e ∧ action.parent? ≠ some store.next) →
        later.SameChildren left right) ∧
      ∀ action,
        (action.target? = some e → (later.after action).get? store.next = some right) ∧
        (action.target? = some store.next → (later.after action).get? e = some left) := by
  intro later
  obtain ⟨cell, copied, hcell, hcopied, hsame⟩ := exists_copy he
  obtain ⟨left, hleft⟩ := exists_get?_run actions hcell
  obtain ⟨right, hright⟩ := exists_get?_run actions hcopied
  refine ⟨left, right, hleft, hright, ?_, ?_⟩
  · -- Neither of the two lists has changed since they were the same.
    intro hnone
    have hleftChildren : left.children = cell.children :=
      children_run (fun action haction => (hnone action haction).1) hcell hleft
    have hrightChildren : right.children = copied.children :=
      children_run (fun action haction => (hnone action haction).2) hcopied hright
    exact sameChildren_of_eq (hleftChildren.trans (hsame.symm.trans hrightChildren.symm)) later
  · have hne : e ≠ store.next := Nat.ne_of_lt he
    intro action
    exact ⟨fun htarget => get?_after_of_target htarget hne hright,
      fun htarget => get?_after_of_target htarget hne.symm hleft⟩

/-- A definition with one option. -/
def definition : Store :=
  ⟨[⟨⟨"option", [("name", "-heap")], some "1200M", none⟩, []⟩,
    ⟨⟨"rundefinition", [("name", "a")], some " ", none⟩, [0]⟩]⟩

/-- The option is changed through one of the two, and other fields of each are changed too. -/
theorem copy_shares_children_definition :
    1 < definition.next ∧
      let later := (definition.after (.copy 1)).run
        [.child 2 0, .set 0 "name" "-stack", .set 2 "name" "b", .setTag 1 "tasks", .append 0 2]
      ∃ left right, later.get? 1 = some left ∧ later.get? 2 = some right ∧
        later.SameChildren left right := by
  have h : 1 < definition.next := by decide
  obtain ⟨left, right, hleft, hright, hsame, -⟩ := copy_shares_children h
    [.child 2 0, .set 0 "name" "-stack", .set 2 "name" "b", .setTag 1 "tasks", .append 0 2]
  refine ⟨h, left, right, hleft, hright, hsame ?_⟩
  simp [Action.parent?, definition, next]

end Store

end Workbench.Xml
