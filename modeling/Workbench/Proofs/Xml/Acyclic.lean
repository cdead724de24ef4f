/-
Elements without cycles.

Every action either adds cells that refer to cells before them, leaves all references as they are, or
adds one edge.  New cells close no cycle, because nothing refers to them yet.  One edge closes a cycle
only if its parent can be reached from its child already, so where no action adds such an edge the
graph stays without cycles (`sound_after`).

With that all elements can be unfolded: what is asked about everything below an element has an
answer, and the bound on the depth makes no difference to it.
-/
import Mathlib
import Workbench.Proofs.Result
import Workbench.Proofs.Xml.Graph

namespace Workbench.Xml

namespace Store

variable {store later : Store} {a b el last : Ref}

/-- All children are elements of the store, and no element is below itself. -/
structure Sound (store : Store) : Prop where
  closed : store.Closed
  acyclic : store.Acyclic

/-- An action is about elements of the store, and gives no element a child from which that element
can be reached. -/
def Allows (store : Store) (action : Action) : Prop :=
  (∀ ref ∈ action.refs, ref < store.next) ∧
    ∀ el last, action = .append el last → ¬ store.Reaches last el

def Permits : Store → List Action → Prop
  | _, [] => True
  | store, action :: actions => store.Allows action ∧ (store.after action).Permits actions

theorem sound_empty : empty.Sound := by
  have hnone : ∀ a b, ¬ empty.Child a b := by
    rintro a b ⟨cell, hcell, -⟩
    cases hcell
  refine ⟨fun a b hchild => absurd hchild (hnone a b), fun ref hcycle => ?_⟩
  obtain ⟨child, hchild, -⟩ := Relation.TransGen.head'_iff.1 hcycle
  exact hnone ref child hchild

/-! ### New cells -/

/-- In a store that goes on an edge is an old one, or leads from a new cell to one before it. -/
theorem child_of_grown (h : Grown store later) (hchild : later.Child a b) :
    a < store.next ∧ store.Child a b ∨ store.next ≤ a ∧ b < a := by
  obtain ⟨cell, hcell, hmem⟩ := hchild
  by_cases hlt : a < store.next
  · rw [get?_of_kept h.kept hlt] at hcell
    exact Or.inl ⟨hlt, child_of_mem hcell hmem⟩
  · have hle := Nat.le_of_not_lt hlt
    exact Or.inr ⟨hle, h.fresh a cell hle hcell b hmem⟩

/-- So old cells reach what they reached, and new cells reach only cells before them. -/
theorem steps_of_grown (hclosed : store.Closed) (h : Grown store later)
    (hsteps : Relation.TransGen later.Child a b) :
    a < store.next ∧ b < store.next ∧ Relation.TransGen store.Child a b ∨
      store.next ≤ a ∧ b < a := by
  induction hsteps with
  | single hchild =>
      rcases child_of_grown h hchild with ⟨hlt, hold⟩ | hnew
      · exact Or.inl ⟨hlt, hclosed _ _ hold, .single hold⟩
      · exact Or.inr hnew
  | tail _ hchild ih =>
      rcases ih with ⟨hlt, hmiddle, hold⟩ | ⟨hle, hmiddle⟩
      · rcases child_of_grown h hchild with ⟨-, hlast⟩ | ⟨hnew, -⟩
        · exact Or.inl ⟨hlt, hclosed _ _ hlast, hold.tail hlast⟩
        · exact absurd hmiddle (Nat.not_lt.2 hnew)
      · rcases child_of_grown h hchild with ⟨-, hlast⟩ | ⟨-, hsmaller⟩
        · exact Or.inr ⟨hle, Nat.lt_of_lt_of_le (hclosed _ _ hlast) hle⟩
        · exact Or.inr ⟨hle, Nat.lt_trans hsmaller hmiddle⟩

theorem sound_of_grown (h : store.Sound) (hgrown : Grown store later) : later.Sound := by
  constructor
  · intro parent child hchild
    rcases child_of_grown hgrown hchild with ⟨-, hold⟩ | ⟨-, hsmaller⟩
    · exact Nat.lt_of_lt_of_le (h.closed _ _ hold) hgrown.next_le
    · obtain ⟨cell, hcell, -⟩ := hchild
      exact Nat.lt_trans hsmaller (lt_of_get? hcell)
  · intro ref hcycle
    rcases steps_of_grown h.closed hgrown hcycle with ⟨-, -, hold⟩ | ⟨-, hsmaller⟩
    · exact h.acyclic ref hold
    · exact Nat.lt_irrefl ref hsmaller

/-- A copy refers to the children of what it is a copy of, which are there already. -/
theorem grown_after (hclosed : store.Closed) {action : Action} (h : action.target? = none) :
    Grown store (store.after action) := by
  cases action with
  | parse document =>
      rw [after]
      split
      · rename_i element _
        exact (addsWell element store).1
      · exact grown_refl store
  | new _ _ _ => exact grown_push (List.forall_mem_nil _)
  | copy el =>
      refine grown_push fun child hchild => ?_
      cases hcell : store.get? el with
      | none =>
          rw [hcell] at hchild
          cases hchild
      | some cell =>
          rw [hcell] at hchild
          exact hclosed el child (child_of_mem hcell hchild)
  | child _ _ | findAll _ _ => exact grown_refl store
  | set _ _ _ | setText _ _ | setTail _ _ | setTag _ _ | append _ _ => cases h

/-! ### Changed cells -/

theorem child_update {f : Cell → Cell} (hf : ∀ cell, (f cell).children = cell.children)
    (ref : Ref) : (store.update ref f).Child = store.Child := by
  funext a b
  by_cases href : ref = a
  · subst href
    rw [Child, Child, get?_update]
    simp [hf]
  · rw [Child, Child, get?_update_of_ne f href]

theorem sound_update (h : store.Sound) {f : Cell → Cell}
    (hf : ∀ cell, (f cell).children = cell.children) (ref : Ref) : (store.update ref f).Sound := by
  refine ⟨?_, ?_⟩
  · rw [Closed, child_update hf, next_update]
    exact h.closed
  · rw [Acyclic, child_update hf]
    exact h.acyclic

/-! ### One more edge -/

theorem child_append (hchild : (store.append el last).Child a b) :
    store.Child a b ∨ a = el ∧ b = last := by
  obtain ⟨cell, hcell, hmem⟩ := hchild
  rw [append] at hcell
  by_cases hel : el = a
  · subst hel
    rw [get?_update] at hcell
    obtain ⟨old, hold, rfl⟩ := Option.map_eq_some_iff.1 hcell
    rcases List.mem_append.1 hmem with hmem | hmem
    · exact Or.inl (child_of_mem hold hmem)
    · exact Or.inr ⟨rfl, List.mem_singleton.1 hmem⟩
  · rw [get?_update_of_ne _ hel] at hcell
    exact Or.inl (child_of_mem hcell hmem)

/-- What can be reached with one more edge can be reached without it, or over that edge. -/
theorem steps_append (hsteps : Relation.TransGen (store.append el last).Child a b) :
    Relation.TransGen store.Child a b ∨ store.Reaches a el ∧ store.Reaches last b := by
  induction hsteps with
  | single hchild =>
      rcases child_append hchild with hold | ⟨rfl, rfl⟩
      · exact Or.inl (.single hold)
      · exact Or.inr ⟨.refl, .refl⟩
  | tail _ hchild ih =>
      rcases child_append hchild with hold | ⟨rfl, rfl⟩
      · rcases ih with hbefore | ⟨hbefore, hover⟩
        · exact Or.inl (hbefore.tail hold)
        · exact Or.inr ⟨hbefore, hover.tail hold⟩
      · rcases ih with hbefore | ⟨hbefore, -⟩
        · exact Or.inr ⟨hbefore.to_reflTransGen, .refl⟩
        · exact Or.inr ⟨hbefore, .refl⟩

theorem sound_append (h : store.Sound) (hlast : last < store.next)
    (hloop : ¬ store.Reaches last el) : (store.append el last).Sound := by
  constructor
  · intro parent child hchild
    rw [append, next_update]
    rcases child_append hchild with hold | ⟨-, rfl⟩
    · exact h.closed _ _ hold
    · exact hlast
  · intro ref hcycle
    rcases steps_append hcycle with hold | ⟨hto, hfrom⟩
    · exact h.acyclic ref hold
    · exact hloop (hfrom.trans hto)

/-! ### Actions -/

/-- **No action that is allowed closes a cycle.** -/
theorem sound_after (h : store.Sound) {action : Action} (hallows : store.Allows action) :
    (store.after action).Sound := by
  rcases store.after_cases action with ⟨hnone, -⟩ | ⟨ref, f, -, -, hafter, hf⟩ | ⟨el, last, rfl⟩
  · exact sound_of_grown h (grown_after h.closed hnone)
  · rw [hafter]
    exact sound_update h hf ref
  · exact sound_append h (hallows.1 last (by simp [Action.refs])) (hallows.2 el last rfl)

theorem sound_run {actions : List Action} :
    ∀ {store : Store}, store.Sound → store.Permits actions → (store.run actions).Sound := by
  induction actions with
  | nil =>
      intro store h _
      exact h
  | cons action actions ih =>
      intro store h hpermits
      exact ih (sound_after h hpermits.1) hpermits.2

end Store

/-! ### Questions -/

namespace Session

/-- A session answers a step and stays as it is. -/
def Answers (session : Session) (step : Step) : Prop :=
  ∃ answer, session.step step = .ok (answer, session)

theorem answers_of_view {session : Session} {left right : String} {ref other : Ref}
    {element otherElement : Element} (hleft : session.ref left = .ok ref)
    (hright : session.ref right = .ok other) (helement : session.store.view ref = some element)
    (hother : session.store.view other = some otherElement) :
    session.Answers (.compact left) ∧ session.Answers (.pretty left) ∧
      session.Answers (.equal left right) := by
  have hread : session.element ref = .ok element := by
    rw [Session.element, helement]
  have hreadOther : session.element other = .ok otherElement := by
    rw [Session.element, hother]
  refine ⟨⟨.compact element.compact, ?_⟩, ⟨.pretty element.pretty, ?_⟩,
    ⟨.equal (element == otherElement), ?_⟩⟩
  · exact bind_eq_ok.2 ⟨ref, hleft, bind_eq_ok.2 ⟨element, hread, rfl⟩⟩
  · exact bind_eq_ok.2 ⟨ref, hleft, bind_eq_ok.2 ⟨element, hread, rfl⟩⟩
  · exact bind_eq_ok.2 ⟨ref, hleft, bind_eq_ok.2 ⟨other, hright,
      bind_eq_ok.2 ⟨element, hread, bind_eq_ok.2 ⟨otherElement, hreadOther, rfl⟩⟩⟩⟩

end Session

namespace Store

/-- **Where no action closes a cycle there is none, and everything is answered.**  Every element that
such actions make can be unfolded, the bound on the depth makes no difference to it, and whoever has
names for elements is told both written forms and whether two of them are equal. -/
theorem run_acyclic {actions : List Action} (h : empty.Permits actions) :
    (empty.run actions).Acyclic ∧
      (∀ ref, ref < (empty.run actions).next →
        ∃ element, (empty.run actions).Unfolds ref element) ∧
      ∀ session : Session, session.store = empty.run actions →
        ∀ left right ref other, session.ref left = .ok ref → session.ref right = .ok other →
          ref < session.store.next → other < session.store.next →
            session.Answers (.compact left) ∧ session.Answers (.pretty left) ∧
              session.Answers (.equal left right) := by
  obtain ⟨hclosed, hacyclic⟩ := sound_run sound_empty h
  refine ⟨hacyclic, fun ref => exists_unfolds hclosed hacyclic, ?_⟩
  intro session hstore left right ref other hleft hright href hother
  rw [← hstore] at hclosed hacyclic
  obtain ⟨element, helement⟩ := exists_unfolds hclosed hacyclic href
  obtain ⟨otherElement, hotherElement⟩ := exists_unfolds hclosed hacyclic hother
  exact Session.answers_of_view hleft hright helement.view hotherElement.view

/-- Two elements, a copy of the first that shares the second, and the first inside of the copy. -/
def shared : List Action :=
  [.new "run" [("name", "a")] none, .new "option" [] (some "x"), .append 0 1, .copy 0, .append 2 0]

theorem permits_shared : empty.Permits shared := by
  refine ⟨⟨nofun, nofun⟩, ⟨nofun, nofun⟩, ⟨by decide, ?_⟩, ⟨by decide, nofun⟩, ⟨by decide, ?_⟩,
    trivial⟩
  · rintro el last ⟨⟩
    exact not_reaches rfl (by decide) (List.forall_mem_nil _)
  · rintro el last ⟨⟩
    refine not_reaches rfl (by decide) (List.forall_mem_singleton.2 ?_)
    exact not_reaches rfl (by decide) (List.forall_mem_nil _)

theorem run_acyclic_shared :
    empty.Permits shared ∧ (empty.run shared).Acyclic ∧
      ∃ element, (empty.run shared).Unfolds 2 element := by
  obtain ⟨hacyclic, hunfolds, -⟩ := run_acyclic permits_shared
  exact ⟨permits_shared, hacyclic, hunfolds 2 (by decide)⟩

end Store

end Workbench.Xml
