/-
What the attributes of an element keep of its history.

Attributes come about in three ways: from a tag, in which no name may occur twice, from a copy, and
from putting them, where a name may be put again.  In each case the element has been given names with
values one after the other, and its attributes are the record of that (`Records`): every name once,
where it was put first, with the value that was put last.

One more name with a value keeps a record a record (`Records.put`).  Cells are shared, so what is put
on an element is put on its cell, and the history that goes along with a store has one list for each
cell (`Store.putsAfter`).  An action adds a list for each new cell, or one more name to one list.
-/
import Mathlib.Data.List.Forall2
import Workbench.Proofs.Xml.Graph
import Workbench.Proofs.Xml.Reordering
import Workbench.Proofs.Xml.Tags

namespace Workbench.Xml

variable {attributes : Attributes} {puts : List (String × String)} {name value : String}

/-! ### One more attribute -/

namespace Attributes

theorem names_put (attributes : Attributes) (name value : String) :
    (attributes.put name value).map Prod.fst =
      if name ∈ attributes.map Prod.fst then attributes.map Prod.fst
      else attributes.map Prod.fst ++ [name] := by
  induction attributes with
  | nil => rfl
  | cons entry rest ih =>
      rw [put]
      by_cases h : entry.1 = name
      · simp [h]
      · have hne : name ≠ entry.1 := Ne.symm h
        rw [if_neg h, List.map_cons, ih]
        simp only [List.map_cons, List.mem_cons, hne, false_or]
        split <;> rfl

theorem get?_put (attributes : Attributes) (name value other : String) :
    (attributes.put name value).get? other =
      if other = name then some value else attributes.get? other := by
  induction attributes with
  | nil => exact lookup_cons_eq_ite (name, value) [] other
  | cons entry rest ih =>
      rw [put, get?]
      split
      · rename_i heq
        rw [lookup_cons_eq_ite, get?, lookup_cons_eq_ite, heq]
        split <;> rfl
      · rename_i hne
        rw [lookup_cons_eq_ite, get?, lookup_cons_eq_ite]
        split
        · rename_i hother
          rw [hother, if_neg hne]
        · exact ih

theorem put_of_new (h : name ∉ attributes.map Prod.fst) :
    attributes.put name value = attributes ++ [(name, value)] := by
  induction attributes with
  | nil => rfl
  | cons entry rest ih =>
      rw [List.map_cons, List.mem_cons, not_or] at h
      rw [put, if_neg (Ne.symm h.1), ih h.2]
      rfl

end Attributes

/-! ### Records -/

/-- Attributes as the record of the names with values that were put. -/
structure Records (puts : List (String × String)) (attributes : Attributes) : Prop where
  /-- No name occurs twice. -/
  distinct : (attributes.map Prod.fst).Nodup
  /-- The names stand in the order in which they were put first. -/
  order : attributes.map Prod.fst = (puts.map Prod.fst).eraseDups
  /-- Every name has the value that was put last. -/
  latest : ∀ name, attributes.get? name = puts.reverse.lookup name

theorem records_nil : Records [] [] :=
  ⟨List.nodup_nil, rfl, fun _ => rfl⟩

theorem Records.mem_iff (h : Records puts attributes) :
    name ∈ attributes.map Prod.fst ↔ name ∈ puts.map Prod.fst := by
  rw [h.order, List.mem_eraseDups]

/-- **A record stays one with every name that is put.** -/
theorem Records.put (h : Records puts attributes) (name value : String) :
    Records (puts ++ [(name, value)]) (attributes.put name value) where
  distinct := by
    rw [Attributes.names_put]
    split
    · exact h.distinct
    · rename_i hnew
      exact List.nodup_append.2 ⟨h.distinct, List.nodup_singleton name, by
        rintro a ha b hb rfl
        exact hnew (List.mem_singleton.1 hb ▸ ha)⟩
  order := by
    have hnames : (puts ++ [(name, value)]).map Prod.fst = puts.map Prod.fst ++ [name] :=
      List.map_append
    rw [Attributes.names_put, hnames, List.eraseDups_append, ← h.order]
    by_cases hmem : name ∈ attributes.map Prod.fst
    · rw [if_pos hmem, List.removeAll, List.filter_cons_of_neg (by simp [h.mem_iff.1 hmem])]
      exact (List.append_nil _).symm
    · rw [if_neg hmem, List.removeAll, List.filter_cons_of_pos (by simp [mt h.mem_iff.2 hmem])]
      rfl
  latest := by
    intro other
    rw [Attributes.get?_put, List.reverse_append, List.reverse_singleton, List.singleton_append,
      lookup_cons_eq_ite, h.latest]

/-- Names with values that are put one after the other leave their record. -/
theorem Records.foldl (h : Records puts attributes) (more : List (String × String)) :
    Records (puts ++ more)
      (more.foldl (fun attributes entry => attributes.put entry.1 entry.2) attributes) := by
  induction more generalizing puts attributes with
  | nil => rwa [List.append_nil]
  | cons entry more ih =>
      have hall := ih (h.put entry.1 entry.2)
      rwa [List.append_assoc] at hall

theorem records_attributesOf (entries : List (String × String)) :
    Records entries (Session.attributesOf entries) :=
  records_nil.foldl entries

/-- Names that differ are their own record. -/
theorem records_of_distinct (h : (attributes.map Prod.fst).Nodup) :
    Records attributes attributes := by
  have happend : ∀ (front behind : Attributes), ((front ++ behind).map Prod.fst).Nodup →
      behind.foldl (fun attributes entry => attributes.put entry.1 entry.2) front =
        front ++ behind := by
    intro front behind
    induction behind generalizing front with
    | nil =>
        intro _
        exact (List.append_nil front).symm
    | cons entry behind ih =>
        intro hdistinct
        have hnew : entry.1 ∉ front.map Prod.fst := by
          rw [List.map_append, List.nodup_append] at hdistinct
          exact fun hmem => hdistinct.2.2 _ hmem _ List.mem_cons_self rfl
        rw [List.foldl_cons, Attributes.put_of_new hnew, ih _ (by simpa using hdistinct)]
        simp
  have hall := records_attributesOf attributes
  rwa [Session.attributesOf, happend [] attributes h] at hall

/-! ### The history of a store -/

namespace Element

mutual

/-- The attributes of an element and of everything below it, children first. -/
def cellAttributes : Element → List Attributes
  | ⟨fields, children⟩ => cellAttributesAll children ++ [fields.attributes]

/-- The attributes of elements and of everything below them, one element after the other. -/
def cellAttributesAll : List Element → List Attributes
  | [] => []
  | e :: es => e.cellAttributes ++ cellAttributesAll es

end

theorem cellAttributesAll_eq_flatMap (children : List Element) :
    cellAttributesAll children = children.flatMap cellAttributes := by
  induction children with
  | nil => rfl
  | cons child children ih => rw [cellAttributesAll, ih, List.flatMap_cons]

/-- The cells of an element have the attributes of its tags. -/
theorem cellAttributes_perm (element : Element) :
    element.cellAttributes.Perm (element.tags.map Prod.snd) := by
  induction element using treeInduction with
  | mk fields children ih =>
      rw [cellAttributes, cellAttributesAll_eq_flatMap, tags_mk, List.map_cons, List.map_flatMap]
      exact (List.perm_append_singleton _ _).trans (.cons _ (List.Perm.flatMap_left children ih))

end Element

namespace Store

/-- What has been put on each cell after an action, where `puts` has been put before.  A tag puts
its attributes, and a copy begins with the attributes of the original. -/
def putsAfter (store : Store) (puts : List (List (String × String))) :
    Action → List (List (String × String))
  | .parse document =>
      match read document with
      | .ok element => puts ++ element.cellAttributes
      | .error _ => puts
  | .new _ attributes _ => puts ++ [attributes]
  | .copy el => puts ++ [((store.get? el).getD default).attributes]
  | .set el name value => puts.modify el fun earlier => earlier ++ [(name, value)]
  | .child _ _ | .findAll _ _ | .setText _ _ | .setTail _ _ | .setTag _ _ | .append _ _ => puts

/-- What has been put on each cell after actions. -/
def putsRun (store : Store) (puts : List (List (String × String))) :
    List Action → List (List (String × String))
  | [] => puts
  | action :: actions => (store.after action).putsRun (store.putsAfter puts action) actions

/-- The attributes of every cell are the record of what has been put on it. -/
def Recorded (store : Store) (puts : List (List (String × String))) : Prop :=
  List.Forall₂ (fun put cell => Records put cell.attributes) puts store.cells

end Store

/-! ### Elements that are added -/

/-- The store goes on with a cell for each list of attributes. -/
def AddsAttributes (element : Element) : Prop :=
  ∀ (store : Store) (puts : List (List (String × String))),
    store.Recorded puts → (store.add element).2.Recorded (puts ++ element.cellAttributes)

namespace Store

variable {store : Store} {puts : List (List (String × String))}

theorem Recorded.push (h : store.Recorded puts) {put : List (String × String)} {cell : Cell}
    (hput : Records put cell.attributes) : (store.push cell).Recorded (puts ++ [put]) :=
  List.rel_append h (.cons hput .nil)

theorem recorded_addAll {children : List Element} (h : ∀ child ∈ children, AddsAttributes child) :
    ∀ (store : Store) (puts : List (List (String × String))), store.Recorded puts →
      (store.addAll children).2.Recorded (puts ++ Element.cellAttributesAll children) := by
  induction children with
  | nil =>
      intro store puts hstore
      rwa [addAll, Element.cellAttributesAll, List.append_nil]
  | cons child children ih =>
      intro store puts hstore
      have hfirst := h child List.mem_cons_self store puts hstore
      have hothers := ih (fun other hother => h other (.tail _ hother)) _ _ hfirst
      rw [addAll, Element.cellAttributesAll, ← List.append_assoc]
      exact hothers

/-- The attributes of an element without a name twice are recorded as they are. -/
theorem addsAttributes (element : Element) (h : element.Every Fields.Distinct) :
    AddsAttributes element := by
  induction element using Element.treeInduction with
  | mk fields children ih =>
      obtain ⟨hfields, hbelow⟩ := Element.every_mk.1 h
      intro store puts hstore
      have hchildren := recorded_addAll (fun child hchild => ih child hchild (hbelow child hchild))
        store puts hstore
      rw [add, Element.cellAttributes, ← List.append_assoc]
      exact hchildren.push (records_of_distinct hfields)

end Store

theorem Element.distinct_of_read {document : String} {element : Element}
    (h : read document = .ok element) : element.Every Fields.Distinct := by
  intro row hrow
  obtain ⟨content, -, -, hdistinct⟩ :=
    exists_of_mem_right (forall₂_isTag h) _ (List.mem_map_of_mem hrow)
  exact hdistinct

/-! ### What is added is there -/

namespace Store

variable {store later : Store} {puts : List (List (String × String))}

theorem tree?_of_kept (h : store.cells <+: later.cells) {depth : Nat} :
    ∀ {ref : Ref} {element : Element}, store.tree? depth ref = some element →
      later.tree? depth ref = some element := by
  induction depth with
  | zero =>
      intro ref element htree
      cases htree
  | succ depth ih =>
      intro ref element htree
      cases hcell : store.get? ref with
      | none => simp [tree?, hcell] at htree
      | some cell =>
          have hkept : later.get? ref = some cell :=
            (get?_of_kept h (lt_of_get? hcell)).trans hcell
          rw [tree?_succ hcell] at htree
          rw [tree?_succ hkept]
          obtain ⟨children, hchildren, rfl⟩ := Option.map_eq_some_iff.1 htree
          rw [mapM_mono (fun child _ element => ih) hchildren]
          rfl

theorem mapM_addAll {children : List Element}
    (h : ∀ child ∈ children, ∀ store : Store,
      (store.add child).2.view (store.add child).1 = some child) :
    ∀ store : Store, (store.addAll children).1.mapM
      ((store.addAll children).2.tree? (store.addAll children).2.next) = some children := by
  induction children with
  | nil =>
      intro store
      rfl
  | cons child children ih =>
      intro store
      have hgrown :=
        (addAll_grown (fun other (_ : other ∈ children) => addsWell other) (store.add child).2).1
      have hfirst := tree?_of_kept hgrown.kept (h child List.mem_cons_self store)
      have hothers := ih (fun other hother => h other (.tail _ hother)) (store.add child).2
      rw [addAll]
      simp only [List.mapM_cons, tree?_mono_of_le hgrown.next_le hfirst, hothers]
      rfl

/-- **An element that is added is the element behind its reference.** -/
theorem view_add (element : Element) :
    ∀ store : Store, (store.add element).2.view (store.add element).1 = some element := by
  induction element using Element.treeInduction with
  | mk fields children ih =>
      intro store
      have hall := mapM_addAll ih store
      have hkept : (store.addAll children).2.cells <+:
          ((store.addAll children).2.push ⟨fields, (store.addAll children).1⟩).cells :=
        List.prefix_append _ _
      rw [add]
      show tree? _ (next (push _ _)) (next _) = _
      rw [next_push, tree?_succ (get?_push _ _),
        mapM_mono (fun _ _ _ => tree?_of_kept hkept) hall]
      rfl

/-! ### Cells that are changed -/

theorem forall₂_modify {α β : Type} {R : α → β → Prop} {f : α → α} {g : β → β}
    {as : List α} {bs : List β} (h : List.Forall₂ R as bs) (hfg : ∀ a b, R a b → R (f a) (g b)) :
    ∀ i, List.Forall₂ R (as.modify i f) (bs.modify i g) := by
  induction h with
  | nil =>
      intro i
      rw [List.modify_nil, List.modify_nil]
      exact .nil
  | cons hab htail ih =>
      rintro (_ | i)
      · rw [List.modify_zero_cons, List.modify_zero_cons]
        exact .cons (hfg _ _ hab) htail
      · rw [List.modify_succ_cons, List.modify_succ_cons]
        exact .cons hab (ih i)

theorem Recorded.distinct (h : store.Recorded puts) :
    ∀ cell ∈ store.cells, cell.toFields.Distinct := by
  intro cell hcell
  obtain ⟨put, -, hput⟩ := exists_of_mem_right h cell hcell
  exact hput.distinct

/-- A change that leaves the attributes alone needs nothing put. -/
theorem Recorded.update (h : store.Recorded puts) (ref : Ref) {f : Cell → Cell}
    (hf : ∀ cell, (f cell).attributes = cell.attributes) : (store.update ref f).Recorded puts := by
  have hall := forall₂_modify (f := id) (g := f) h (fun put cell hput => (hf cell).symm ▸ hput) ref
  rwa [List.modify_id] at hall

/-- **After every action the attributes are the record of what has been put.** -/
theorem Recorded.after (h : store.Recorded puts) (action : Action) :
    (store.after action).Recorded (store.putsAfter puts action) := by
  cases action with
  | parse document =>
      rw [Store.after, putsAfter]
      cases hread : read document with
      | ok element => exact addsAttributes element (Element.distinct_of_read hread) store puts h
      | error _ => exact h
  | new tag attributes text => exact h.push (records_attributesOf attributes)
  | copy el =>
      refine h.push (records_of_distinct ?_)
      cases hcell : store.get? el with
      | none => exact List.nodup_nil
      | some cell => exact h.distinct cell (List.mem_of_getElem? hcell)
  | set el name value => exact forall₂_modify h (fun put cell hput => hput.put name value) el
  | child _ _ | findAll _ _ => exact h
  | setText el _ | setTail el _ | setTag el _ | append el _ => exact h.update el fun _ => rfl

/-- So they are after any number of actions. -/
theorem Recorded.run (h : store.Recorded puts) (actions : List Action) :
    (store.run actions).Recorded (store.putsRun puts actions) := by
  induction actions generalizing store puts with
  | nil => exact h
  | cons action actions ih => exact ih (h.after action)

theorem recorded_empty : Store.empty.Recorded [] :=
  .nil

/-! ### Trees of cells -/

/-- What holds of all cells holds throughout the trees that they make. -/
theorem every_tree? {P : Fields → Prop} (h : ∀ cell ∈ store.cells, P cell.toFields) {depth : Nat} :
    ∀ {ref : Ref} {element : Element}, store.tree? depth ref = some element → element.Every P := by
  induction depth with
  | zero =>
      intro ref element htree
      cases htree
  | succ depth ih =>
      intro ref element htree
      cases hcell : store.get? ref with
      | none => simp [tree?, hcell] at htree
      | some cell =>
          rw [tree?_succ hcell] at htree
          obtain ⟨children, hchildren, rfl⟩ := Option.map_eq_some_iff.1 htree
          refine Element.every_mk.2 ⟨h cell (List.mem_of_getElem? hcell), fun child hchild => ?_⟩
          obtain ⟨below, -, hbelow⟩ := exists_of_mem_mapM hchildren hchild
          exact ih hbelow

/-- **Attributes stay in order and without a name twice.**  After any actions the attributes of every
cell are the record of what has been put on it.  A document that is read puts the attributes of its
tags, all of them and in their order, and one with a name twice in a tag is refused.  Elements that
differ in the order of attributes are equal, and their written forms differ as long as the end of
every name can be seen. -/
theorem attributes_ordered :
    (∀ actions : List Action,
      (Store.empty.run actions).Recorded (Store.empty.putsRun [] actions)) ∧
    (∀ (store : Store) (document : String) (element : Element), read document = .ok element →
      (store.after (.parse document)).view (store.add element).1 = some element ∧
      element.cellAttributes.Perm (element.tags.map Prod.snd) ∧
      List.Forall₂ (fun content tag => IsTag tag content ∧ (tag.2.map Prod.fst).Nodup)
        (scan (withoutMark document.toList)).tagContents element.tags) ∧
    (∀ (document : String) (content : List Char) (tag : String × Attributes),
      content ∈ (scan (withoutMark document.toList)).tagContents → IsTag tag content →
      ¬ (tag.2.map Prod.fst).Nodup → ∃ message, read document = .error (.xml message)) ∧
    ∀ (actions : List Action) (left right : Ref) (e e' : Element),
      (Store.empty.run actions).view left = some e →
      (Store.empty.run actions).view right = some e' → Reordered [e] [e'] →
        (e == e') = true ∧
        (e.Every Fields.Unbroken → e ≠ e' → e.compact ≠ e'.compact ∧ e.pretty ≠ e'.pretty) := by
  refine ⟨recorded_empty.run, fun store document element hread =>
      ⟨?_, element.cellAttributes_perm, forall₂_isTag hread⟩,
    fun document content tag => read_of_repeated, fun actions left right e e' hleft _ h => ?_⟩
  · rw [Store.after, hread]
    exact view_add element store
  · have hdistinct : e.Every Fields.Distinct :=
      every_tree? (recorded_empty.run actions).distinct hleft
    exact ⟨h.beq hdistinct, h.written_ne⟩

/-- A document, a copy of its root from before the root is changed, and a new element with the
attributes of the copy in another order. -/
def edits : List Action :=
  [.parse "<e b='1' a=\"2\"/>", .set 0 "a" "3", .set 0 "c" "4", .copy 0, .set 0 "b" "5",
    .new "e" [("c", "4"), ("a", "2"), ("b", "1"), ("a", "3")] none]

def edited : Store :=
  ⟨[.leaf (.plain "e" [("b", "5"), ("a", "3"), ("c", "4")]),
    .leaf (.plain "e" [("b", "1"), ("a", "3"), ("c", "4")]),
    .leaf (.plain "e" [("c", "4"), ("a", "3"), ("b", "1")])]⟩

/-- What has been put on each of the three cells. -/
def editPuts : List (List (String × String)) :=
  [[("b", "1"), ("a", "2"), ("a", "3"), ("c", "4"), ("b", "5")],
    [("b", "1"), ("a", "3"), ("c", "4")],
    [("c", "4"), ("a", "2"), ("b", "1"), ("a", "3")]]

/-- The copy and the new element are equal and written differently, and a tag with the same
attribute twice is refused. -/
theorem attributes_ordered_edits :
    Store.empty.run edits = edited ∧ edited.Recorded editPuts ∧
      (∃ copied made, edited.view 1 = some copied ∧ edited.view 2 = some made ∧
        (copied == made) = true ∧ copied.compact ≠ made.compact) ∧
      (Store.empty.after (.parse "<e b='1'/>")).view 0 = some (.leaf (.plain "e" [("b", "1")])) ∧
      ∃ message, read "<e b='1' b='1'/>" = .error (.xml message) := by
  obtain ⟨hrecorded, hread, hrepeated, hsame⟩ := attributes_ordered
  have hrun : Store.empty.run edits = edited := by cbv
  have hputs : Store.empty.putsRun [] edits = editPuts := by cbv
  have hnone : AreBlank [] := by simp [AreBlank]
  have hattribute : IsAttribute ("b", "1") ['b', '=', '\'', '1', '\''] :=
    @IsAttribute.mk 'b' '\'' [] [] [] ['1'] ['1'] (by decide) (by simp) hnone hnone
      (.inr rfl) (by simp) (by cbv)
  have hspace : AreBlank [' '] := by simp [AreBlank, isSpace]
  have htag : IsTag ("e", [("b", "1"), ("b", "1")])
      ['e', ' ', 'b', '=', '\'', '1', '\'', ' ', 'b', '=', '\'', '1', '\''] :=
    @IsTag.mk ['e'] _ _ (by simp [isSpace]) (by simp [isSpace])
      (.cons hspace hattribute (.cons hspace hattribute (.nil hnone)))
  have hcontents : (scan (withoutMark "<e b='1' b='1'/>".toList)).tagContents =
      [['e', ' ', 'b', '=', '\'', '1', '\'', ' ', 'b', '=', '\'', '1', '\'']] := by cbv
  refine ⟨hrun, ?_, ?_, ?_, hrepeated _ _ _ (by rw [hcontents]; simp) htag (by decide)⟩
  · rw [← hrun, ← hputs]
    exact hrecorded edits
  · obtain ⟨hequal, hwritten⟩ := hsame edits 1 2
      (.leaf (.plain "e" [("b", "1"), ("a", "3"), ("c", "4")]))
      (.leaf (.plain "e" [("c", "4"), ("a", "3"), ("b", "1")]))
      (by rw [hrun]; rfl) (by rw [hrun]; rfl)
      (.cons (by decide) .nil .nil)
    refine ⟨_, _, rfl, rfl, hequal, (hwritten (by decide) ?_).1⟩
    intro heq
    exact absurd (congrArg (fun e => e.attributes) heq) (by decide)
  · exact (hread Store.empty "<e b='1'/>" _ (by cbv)).1

/-- Two elements with the same attributes in another order.  One of the names looks like an
attribute and the name of the next. -/
def broken : List Action :=
  [.new "e" [("a", "b"), ("a=\"b\" a", "b")] none, .new "e" [("a=\"b\" a", "b"), ("a", "b")] none]

/-- Such elements may be written as the same text. -/
theorem attributes_ordered_broken :
    ¬ ∀ (actions : List Action) (left right : Ref) (e e' : Element),
      (Store.empty.run actions).view left = some e →
      (Store.empty.run actions).view right = some e' → Reordered [e] [e'] →
        (e == e') = true ∧ (e ≠ e' → e.compact ≠ e'.compact) := by
  intro h
  obtain ⟨-, hwritten⟩ := h broken 0 1 (.leaf (.plain "e" [("a", "b"), ("a=\"b\" a", "b")]))
    (.leaf (.plain "e" [("a=\"b\" a", "b"), ("a", "b")])) (by rfl) (by rfl)
    (.cons (List.Perm.swap _ _ _) .nil .nil)
  refine hwritten (fun heq => ?_) (by decide)
  exact absurd (congrArg (fun e => e.attributes) heq) (by decide)

end Store

end Workbench.Xml
