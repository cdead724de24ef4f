/-
Tags that form trees.

The tags of a document form trees side by side: a tag that closes itself is a tree, and so are an
opening tag, trees, and a closing tag with the same name.  `Forest` says this of a whole list of
tags.  A reader stands in the middle of such a list and knows only the names that are open, so
`Completes` says of the rest of the list what these names leave to be done.  The lemmas about the
first tag of such a rest are how a reader decides the grammar one tag at a time.
-/
import Workbench.Xml.Attribute
import Workbench.Xml.Markup

namespace Workbench.Xml

/-- A tag, as far as nesting depends on it. -/
inductive Tag
  | opening (name : String)
  | single (name : String)
  | closing (name : String)
deriving DecidableEq, Repr

/-- The tag that a piece is, if it is one. -/
def Markup.tag? : Markup → Option Tag
  | .opening content => some (.opening (tagName content))
  | .single content => some (.single (tagName content))
  | .closing name => some (.closing (String.ofList name))
  | _ => none

/-- Tags that form trees side by side, with their number. -/
inductive Forest : Nat → List Tag → Prop
  | nil : Forest 0 []
  | single {count : Nat} {rest : List Tag} (name : String) (hrest : Forest count rest) :
      Forest (count + 1) (.single name :: rest)
  | element {inside count : Nat} {content rest : List Tag} (name : String)
      (hcontent : Forest inside content) (hrest : Forest count rest) :
      Forest (count + 1) (.opening name :: (content ++ .closing name :: rest))

/-- Tags that complete the elements that are open, the innermost first, and then form more trees
beside the outermost of them. -/
def Completes : List String → Nat → List Tag → Prop
  | [], count, tags => Forest count tags
  | name :: names, count, tags =>
      ∃ inside content rest, Forest inside content ∧ tags = content ++ .closing name :: rest ∧
        Completes names count rest

theorem completes_nil {names : List String} {count : Nat} :
    Completes names count [] ↔ names = [] ∧ count = 0 := by
  constructor
  · intro h
    cases names with
    | nil =>
        cases h
        exact ⟨rfl, rfl⟩
    | cons name names =>
        obtain ⟨inside, content, rest, -, htags, -⟩ := h
        simp at htags
  · rintro ⟨rfl, rfl⟩
    exact Forest.nil

/-- Beside all others an opening tag begins one more tree. -/
theorem completes_opening {count : Nat} {name : String} {tags : List Tag} :
    Completes [] count (.opening name :: tags) ↔
      ∃ more, count = more + 1 ∧ Completes [name] more tags := by
  constructor
  · intro h
    -- The tree that begins here is cut where its own closing tag stands.
    cases h with
    | element _ hcontent hrest => exact ⟨_, rfl, _, _, _, hcontent, rfl, hrest⟩
  · rintro ⟨more, rfl, inside, content, rest, hcontent, rfl, hrest⟩
    exact Forest.element name hcontent hrest

/-- Inside an element an opening tag begins a child. -/
theorem completes_opening_inside {outer : String} {names : List String} {count : Nat}
    {name : String} {tags : List Tag} :
    Completes (outer :: names) count (.opening name :: tags) ↔
      Completes (name :: outer :: names) count tags := by
  constructor
  · rintro ⟨inside, content, rest, hforest, htags, hrest⟩
    cases hforest with
    | nil => simp at htags
    | single _ _ => simp at htags
    | element other hcontent hothers =>
        simp only [List.cons_append, List.append_assoc, List.cons.injEq, Tag.opening.injEq]
          at htags
        obtain ⟨rfl, rfl⟩ := htags
        exact ⟨_, _, _, hcontent, rfl, _, _, _, hothers, rfl, hrest⟩
  · rintro ⟨_, content, _, hcontent, rfl, _, others, rest, hothers, rfl, hrest⟩
    exact ⟨_, _, rest, Forest.element name hcontent hothers, by simp, hrest⟩

theorem completes_single {count : Nat} {name : String} {tags : List Tag} :
    Completes [] count (.single name :: tags) ↔
      ∃ more, count = more + 1 ∧ Completes [] more tags := by
  constructor
  · intro h
    cases h with
    | single _ hrest => exact ⟨_, rfl, hrest⟩
  · rintro ⟨more, rfl, hrest⟩
    exact Forest.single name hrest

theorem completes_single_inside {outer : String} {names : List String} {count : Nat}
    {name : String} {tags : List Tag} :
    Completes (outer :: names) count (.single name :: tags) ↔
      Completes (outer :: names) count tags := by
  constructor
  · rintro ⟨inside, content, rest, hforest, htags, hrest⟩
    cases hforest with
    | nil => simp at htags
    | element _ _ _ => simp at htags
    | single other hothers =>
        simp only [List.cons_append, List.cons.injEq, Tag.single.injEq] at htags
        obtain ⟨rfl, rfl⟩ := htags
        exact ⟨_, _, _, hothers, rfl, hrest⟩
  · rintro ⟨_, others, rest, hothers, rfl, hrest⟩
    exact ⟨_, _, rest, Forest.single name hothers, by simp, hrest⟩

/-- A closing tag completes the innermost element and no other. -/
theorem completes_closing {names : List String} {count : Nat} {name : String}
    {tags : List Tag} :
    Completes names count (.closing name :: tags) ↔
      ∃ outer, names = name :: outer ∧ Completes outer count tags := by
  constructor
  · intro h
    cases names with
    | nil => cases h
    | cons expected outer =>
        obtain ⟨inside, content, rest, hforest, htags, hrest⟩ := h
        cases hforest with
        | nil =>
            simp only [List.nil_append, List.cons.injEq, Tag.closing.injEq] at htags
            obtain ⟨rfl, rfl⟩ := htags
            exact ⟨outer, rfl, hrest⟩
        | single _ _ => simp at htags
        | element _ _ _ => simp at htags
  · rintro ⟨outer, rfl, hrest⟩
    exact ⟨0, [], tags, Forest.nil, rfl, hrest⟩

/-! ### Trees in front of others -/

/-- Inside an element whole trees change nothing about what is left to be done. -/
theorem completes_append_inside {inside : Nat} {content : List Tag} (h : Forest inside content) :
    ∀ {outer : String} {names : List String} {count : Nat} {tags : List Tag},
      Completes (outer :: names) count (content ++ tags) ↔
        Completes (outer :: names) count tags := by
  induction h with
  | nil =>
      intro outer names count tags
      exact Iff.rfl
  | single name _ ih =>
      intro outer names count tags
      rw [List.cons_append, completes_single_inside, ih]
  | element name _ _ ihcontent ihrest =>
      intro outer names count tags
      rw [List.cons_append, completes_opening_inside, List.append_assoc, ihcontent,
        List.cons_append, completes_closing]
      simp [ihrest]

/-- Beside all others they are counted. -/
theorem completes_append {first : Nat} {content : List Tag} (h : Forest first content) :
    ∀ {count : Nat} {tags : List Tag}, Completes [] count (content ++ tags) ↔
      ∃ more, count = first + more ∧ Completes [] more tags := by
  induction h with
  | nil =>
      intro count tags
      simp
  | @single first rest name _ ih =>
      intro count tags
      rw [List.cons_append, completes_single]
      constructor
      · rintro ⟨others, rfl, hothers⟩
        obtain ⟨more, rfl, hmore⟩ := ih.1 hothers
        exact ⟨more, by omega, hmore⟩
      · rintro ⟨more, rfl, hmore⟩
        exact ⟨first + more, by omega, ih.2 ⟨more, rfl, hmore⟩⟩
  | @element inside first content rest name hcontent _ _ ih =>
      intro count tags
      have hclosed : ∀ others, Completes [name] others (content ++ .closing name :: rest ++ tags) ↔
          Completes [] others (rest ++ tags) := by
        intro others
        rw [List.append_assoc, completes_append_inside hcontent, List.cons_append,
          completes_closing]
        simp
      rw [List.cons_append, completes_opening]
      constructor
      · rintro ⟨others, rfl, hothers⟩
        obtain ⟨more, rfl, hmore⟩ := ih.1 ((hclosed others).1 hothers)
        exact ⟨more, by omega, hmore⟩
      · rintro ⟨more, rfl, hmore⟩
        exact ⟨first + more, by omega, (hclosed _).2 (ih.2 ⟨more, rfl, hmore⟩)⟩

theorem ne_nil_of_forest {tags : List Tag} (h : Forest 1 tags) : tags ≠ [] := by
  rintro rfl
  cases h

/-- **Behind one tree nothing can follow that makes it one tree again.** -/
theorem eq_nil_of_forest_append {content tags : List Tag} (h : Forest 1 content)
    (hboth : Forest 1 (content ++ tags)) : tags = [] := by
  obtain ⟨more, hcount, hmore⟩ := (completes_append h).1 hboth
  have hnone : more = 0 := by omega
  rw [hnone] at hmore
  cases hmore
  rfl

end Workbench.Xml
