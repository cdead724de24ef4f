/-
Attributes in another order.

Elements that differ in the order of attributes are equal, because equality only looks names up; for
that the names of an element have to differ.  In writing the order shows.  Written in another order
attributes take as many characters as before, so that two written forms are equal only if they are
equal part by part (`SameSize`), and a list of attributes can be read off what it is written as.

That works as long as the end of a name is seen.  Names are written as they are, so a name that
holds an equals sign and a quote may look like a whole attribute and the name of the next one.
-/
import Mathlib.Data.List.Basic
import Workbench.Proofs.Xml.Tree

namespace Workbench.Xml

/-- Elements that differ from others in the order of attributes only, here and below. -/
inductive Reordered : List Element → List Element → Prop
  | nil : Reordered [] []
  | cons {fields : Fields} {attributes : Attributes} {children children' es es' : List Element}
      (h : fields.attributes.Perm attributes) (hchildren : Reordered children children')
      (hmore : Reordered es es') :
      Reordered (⟨fields, children⟩ :: es)
        (⟨{ fields with attributes := attributes }, children'⟩ :: es')

/-- The names of the attributes differ. -/
def Fields.Distinct (fields : Fields) : Prop :=
  (fields.attributes.map Prod.fst).Nodup

/-! ### Equality -/

section Equality

variable {attributes others : Attributes} {name value : String} {es es' : List Element}

theorem Attributes.get?_of_mem (h : (attributes.map Prod.fst).Nodup)
    (hmem : (name, value) ∈ attributes) : attributes.get? name = some value := by
  obtain ⟨before, behind, rfl⟩ := List.append_of_mem hmem
  refine List.lookup_eq_some_iff.2 ⟨before, behind, rfl, fun entry hentry => bne_iff_ne.2 ?_⟩
  rw [List.map_append, List.nodup_append] at h
  exact (h.2.2 entry.1 (List.mem_map_of_mem hentry) name List.mem_cons_self).symm

/-- The order of attributes does not count. -/
theorem Attributes.agree_of_perm (h : attributes.Perm others)
    (hdistinct : (attributes.map Prod.fst).Nodup) : attributes.agree others = true := by
  have hothers : (others.map Prod.fst).Nodup := (h.map Prod.fst).nodup_iff.1 hdistinct
  rw [Attributes.agree, Bool.and_eq_true, beq_iff_eq, List.all_eq_true]
  refine ⟨h.length_eq, fun entry hentry => ?_⟩
  rw [Attributes.get?_of_mem hothers (h.subset hentry)]
  exact beq_self_eq_true _

theorem Reordered.agreeAll (h : Reordered es es') (hdistinct : ∀ e ∈ es, e.Every Fields.Distinct) :
    Element.agreeAll es es' = true := by
  induction h with
  | nil => rfl
  | @cons fields attributes children children' es es' hperm hchildren hmore ih ihmore =>
      obtain ⟨hfirst, hothers⟩ := List.forall_mem_cons.1 hdistinct
      obtain ⟨hfields, hbelow⟩ := Element.every_mk.1 hfirst
      have hagree : fields.agree { fields with attributes := attributes } = true := by
        simp [Fields.agree, Attributes.agree_of_perm hperm hfields]
      rw [Element.agreeAll, Element.agree, hagree, ih hbelow, ihmore hothers]
      rfl

/-- **Elements that differ in the order of attributes are equal.** -/
theorem Reordered.beq {e e' : Element} (h : Reordered [e] [e'])
    (hdistinct : e.Every Fields.Distinct) : (e == e') = true := by
  have hall := h.agreeAll (List.forall_mem_singleton.2 hdistinct)
  rw [Element.agreeAll, Bool.and_eq_true] at hall
  exact hall.1

end Equality

/-! ### Written attributes -/

/-- A name in which nothing looks like the end of a name. -/
def Unbroken (name : String) : Prop :=
  ¬ ['=', '"'] <:+: name.toList

instance (name : String) : Decidable (Unbroken name) :=
  inferInstanceAs (Decidable (¬ _))

/-- Fields with such names. -/
def Fields.Unbroken (fields : Fields) : Prop :=
  ∀ entry ∈ fields.attributes, Xml.Unbroken entry.1

instance (fields : Fields) : Decidable fields.Unbroken :=
  inferInstanceAs (Decidable (∀ entry ∈ fields.attributes, Xml.Unbroken entry.1))

section Attributes

variable {left right more others : List Char} {entry other : String × String}

theorem cons_ne_of_unbroken {c : Char} (h : ¬ ['=', '"'] <:+: c :: right) :
    '=' :: '"' :: more ≠ c :: (right ++ '=' :: '"' :: others) := by
  intro heq
  obtain ⟨rfl, hrest⟩ := List.cons.inj heq
  cases right with
  | nil => cases hrest
  | cons d right =>
      obtain ⟨rfl, -⟩ := List.cons.inj hrest
      exact h ⟨[], right, rfl⟩

/-- The first equals sign with a quote behind it ends the name. -/
theorem eq_of_unbroken (hleft : ¬ ['=', '"'] <:+: left) (hright : ¬ ['=', '"'] <:+: right)
    (h : left ++ '=' :: '"' :: more = right ++ '=' :: '"' :: others) :
    left = right ∧ more = others := by
  induction left generalizing right with
  | nil =>
      cases right with
      | nil => exact ⟨rfl, (List.cons.inj (List.cons.inj h).2).2⟩
      | cons d right => exact absurd h (cons_ne_of_unbroken hright)
  | cons c left ih =>
      cases right with
      | nil => exact absurd h.symm (cons_ne_of_unbroken hleft)
      | cons d right =>
          obtain ⟨rfl, hrest⟩ := List.cons.inj h
          obtain ⟨rfl, hmore⟩ := ih (fun hin => hleft (List.infix_cons hin))
            (fun hin => hright (List.infix_cons hin)) hrest
          exact ⟨rfl, hmore⟩

theorem append_stop_inj {stop : Char} (hleft : ∀ c ∈ left, c ≠ stop) (hright : ∀ c ∈ right, c ≠ stop)
    (h : left ++ stop :: more = right ++ stop :: others) : left = right ∧ more = others := by
  have hinside {text : List Char} (htext : ∀ c ∈ text, c ≠ stop) : ∀ c ∈ text, (c != stop) = true :=
    fun c hc => bne_iff_ne.2 (htext c hc)
  have hend : (stop != stop) = false := bne_self_eq_false stop
  have htake := congrArg (List.takeWhile (· != stop)) h
  rw [takeWhile_append_stop (hinside hleft) hend,
    takeWhile_append_stop (hinside hright) hend] at htake
  have hdrop := congrArg (List.dropWhile (· != stop)) h
  rw [dropWhile_append_stop (hinside hleft) hend,
    dropWhile_append_stop (hinside hright) hend] at hdrop
  exact ⟨htake, (List.cons.inj hdrop).2⟩

theorem escapeValue_injective (h : escapeValue left = escapeValue right) : left = right := by
  have hboth := congrArg unescape h
  rw [unescape_escapeValue, unescape_escapeValue] at hboth
  exact Except.ok.inj hboth

/-- An attribute can be read off what it is written as, with whatever follows. -/
theorem attributeText_append_inj (hentry : Unbroken entry.1) (hother : Unbroken other.1)
    (h : attributeText entry ++ more = attributeText other ++ others) :
    entry = other ∧ more = others := by
  obtain ⟨name, value⟩ := entry
  obtain ⟨name', value'⟩ := other
  have htext : ∀ (name value : String) (more : List Char), attributeText (name, value) ++ more =
      ' ' :: (name.toList ++ '=' :: '"' :: (escapeValue value.toList ++ '"' :: more)) := by
    simp [attributeText]
  rw [htext, htext] at h
  obtain ⟨hname, hrest⟩ := eq_of_unbroken hentry hother (List.cons.inj h).2
  obtain ⟨hvalue, hmore⟩ := append_stop_inj (fun c hc => (ne_of_mem_escapeValue hc).2.2)
    (fun c hc => (ne_of_mem_escapeValue hc).2.2) hrest
  obtain rfl : name = name' := String.toList_injective hname
  obtain rfl : value = value' := String.toList_injective (escapeValue_injective hvalue)
  exact ⟨rfl, hmore⟩

theorem flatMap_attributeText_inj {attributes others : Attributes}
    (hattributes : ∀ entry ∈ attributes, Unbroken entry.1)
    (hothers : ∀ entry ∈ others, Unbroken entry.1)
    (h : attributes.flatMap attributeText = others.flatMap attributeText) : attributes = others := by
  induction attributes generalizing others with
  | nil =>
      cases others with
      | nil => rfl
      | cons other others => simp [attributeText] at h
  | cons entry attributes ih =>
      cases others with
      | nil => simp [attributeText] at h
      | cons other others =>
          obtain ⟨hentry, hentries⟩ := List.forall_mem_cons.1 hattributes
          obtain ⟨hother, hbehind⟩ := List.forall_mem_cons.1 hothers
          rw [List.flatMap_cons, List.flatMap_cons] at h
          obtain ⟨rfl, hrest⟩ := attributeText_append_inj hentry hother h
          rw [ih hentries hbehind hrest]

end Attributes

/-! ### Written elements -/

/-- Two texts of one length, which are the same only if `P` holds. -/
structure SameSize (left right : List Char) (P : Prop) : Prop where
  length : left.length = right.length
  eq : left = right → P

section SameSize

variable {left right more others : List Char} {P Q : Prop}

theorem sameSize_refl (text : List Char) : SameSize text text True :=
  ⟨rfl, fun _ => trivial⟩

theorem SameSize.append (h : SameSize left right P) (hmore : SameSize more others Q) :
    SameSize (left ++ more) (right ++ others) (P ∧ Q) where
  length := by rw [List.length_append, List.length_append, h.length, hmore.length]
  eq heq := (List.append_inj heq h.length).imp h.eq hmore.eq

theorem SameSize.imp (h : SameSize left right P) (himp : P → Q) : SameSize left right Q :=
  ⟨h.length, fun heq => himp (h.eq heq)⟩

/-- What stands in front of both and behind both makes no difference. -/
theorem SameSize.between (h : SameSize left right P) (before behind : List Char) :
    SameSize (before ++ left ++ behind) (before ++ right ++ behind) P :=
  (((sameSize_refl before).append h).append (sameSize_refl behind)).imp fun hall => hall.1.2

end SameSize

section Written

variable {fields : Fields} {attributes : Attributes} {es es' : List Element}

theorem sameSize_tagStart (h : fields.attributes.Perm attributes) (hnames : fields.Unbroken) :
    SameSize fields.tagStart (Fields.tagStart { fields with attributes := attributes })
      (fields.attributes = attributes) := by
  have hall : SameSize (fields.attributes.flatMap attributeText) (attributes.flatMap attributeText)
      (fields.attributes = attributes) :=
    ⟨(h.flatMap_right _).length_eq, flatMap_attributeText_inj hnames
      fun entry hentry => hnames entry (h.symm.subset hentry)⟩
  exact (((sameSize_refl ('<' :: fields.tag.toList)).append hall)).imp And.right

theorem Reordered.isEmpty_eq (h : Reordered es es') : es.isEmpty = es'.isEmpty := by
  cases h <;> rfl

/-- Compact forms are the same only of the same elements. -/
theorem Reordered.compactAll (h : Reordered es es') (hnames : ∀ e ∈ es, e.Every Fields.Unbroken) :
    SameSize (Xml.compactAll es) (Xml.compactAll es') (es = es') := by
  induction h with
  | nil => exact (sameSize_refl []).imp fun _ => rfl
  | @cons fields attributes children children' es es' hperm hchildren hmore ih ihmore =>
      obtain ⟨hfirst, hothers⟩ := List.forall_mem_cons.1 hnames
      obtain ⟨hfields, hbelow⟩ := Element.every_mk.1 hfirst
      have hstart := sameSize_tagStart hperm hfields
      have helement : SameSize (Element.compactText ⟨fields, children⟩)
          (Element.compactText ⟨{ fields with attributes := attributes }, children'⟩)
          (fields.attributes = attributes ∧ children = children') := by
        rw [Element.compactText, Element.compactText, ← hchildren.isEmpty_eq]
        split
        · rename_i hempty
          obtain rfl : children = [] := List.isEmpty_iff.1 (Bool.and_eq_true_iff.1 hempty).2
          cases hchildren
          exact (hstart.append (sameSize_refl singleEnd)).imp fun hall => ⟨hall.1, rfl⟩
        · have hinside := ((hstart.append (sameSize_refl ('>' :: dataText fields.text))).append
            (ih hbelow)).append (sameSize_refl fields.tagEnd)
          exact hinside.imp fun hall => ⟨hall.1.1.1, hall.1.2⟩
      rw [Xml.compactAll, Xml.compactAll]
      refine ((helement.append (sameSize_refl (dataText fields.tail))).append
        (ihmore hothers)).imp ?_
      rintro ⟨⟨⟨rfl, rfl⟩, -⟩, rfl⟩
      rfl

/-- So are indented forms. -/
theorem Reordered.indentedAll (h : Reordered es es') (hnames : ∀ e ∈ es, e.Every Fields.Unbroken) :
    ∀ depth, SameSize (Xml.indentedAll depth es) (Xml.indentedAll depth es') (es = es') := by
  induction h with
  | nil => exact fun _ => (sameSize_refl []).imp fun _ => rfl
  | @cons fields attributes children children' es es' hperm hchildren hmore ih ihmore =>
      obtain ⟨hfirst, hothers⟩ := List.forall_mem_cons.1 hnames
      obtain ⟨hfields, hbelow⟩ := Element.every_mk.1 hfirst
      have hstart := sameSize_tagStart hperm hfields
      intro depth
      have helement : SameSize (Element.indentedText depth ⟨fields, children⟩)
          (Element.indentedText depth ⟨{ fields with attributes := attributes }, children'⟩)
          (fields.attributes = attributes ∧ children = children') := by
        cases hchildren with
        | nil =>
            rw [Element.indentedText, Element.indentedText]
            dsimp only
            split
            · rename_i content hcontent
              have hline := ((hstart.append (sameSize_refl ('>' :: escape content))).append
                (sameSize_refl fields.tagEnd)).between (indentation depth) ['\n']
              exact hline.imp fun hall => ⟨hall.1.1, rfl⟩
            · have hline :=
                (hstart.append (sameSize_refl singleEnd)).between (indentation depth) ['\n']
              exact hline.imp fun hall => ⟨hall.1, rfl⟩
        | cons hperm' hchildren' hmore' =>
            have hline := (hstart.append (sameSize_refl ['>'])).between (indentation depth) ['\n']
            have hall := ((hline.append (sameSize_refl (dataLine (depth + 1) fields.text))).append
              (ih hbelow (depth + 1))).append (sameSize_refl (lineAt depth fields.tagEnd))
            exact hall.imp fun hall => ⟨hall.1.1.1.1, hall.1.2⟩
      rw [Xml.indentedAll, Xml.indentedAll]
      refine ((helement.append (sameSize_refl (dataLine depth fields.tail))).append
        (ihmore hothers depth)).imp ?_
      rintro ⟨⟨⟨rfl, rfl⟩, -⟩, rfl⟩
      rfl

theorem Reordered.tail_eq {e e' : Element} (h : Reordered [e] [e']) : e.tail = e'.tail := by
  cases h
  rfl

/-- **Elements that differ in the order of attributes have different written forms**, if the end of
every name can be seen. -/
theorem Reordered.written_ne {e e' : Element} (h : Reordered [e] [e'])
    (hnames : e.Every Fields.Unbroken) (hne : e ≠ e') :
    e.compact ≠ e'.compact ∧ e.pretty ≠ e'.pretty := by
  have hall := List.forall_mem_singleton.2 hnames
  have hsingle : [e] ≠ [e'] := fun heq => hne (List.cons.inj heq).1
  refine ⟨fun hcompact => hsingle ((h.compactAll hall).eq ?_),
    fun hpretty => hsingle ((h.indentedAll hall 0).eq ?_)⟩
  · rw [Xml.compactAll, Xml.compactAll, String.ofList_injective hcompact, h.tail_eq]
    rfl
  · have hboth := List.append_cancel_left (String.ofList_injective hpretty)
    rw [Xml.indentedAll, Xml.indentedAll, hboth, h.tail_eq]
    rfl

end Written

end Workbench.Xml
