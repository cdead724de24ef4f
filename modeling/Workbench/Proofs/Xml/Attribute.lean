/-
Tags as documents may write them.

A tag in a document has more freedom than the tags that the library writes: any blanks between its
attributes and around equals signs, either kind of quote, keys of almost any characters.  `IsTag`
tells which texts are the content of a tag, and which attributes these are, without looking at how
they are read.  Whether a name occurs twice is no part of that.

The reader goes along the attributes one by one, with the keys that it has met.  So there are three
cases for one attribute, and three for all of them: they are read, all and in their order, or the
first key that has been met before is the fault, or the text is no tag.
-/
import Mathlib.Data.List.TakeWhile
import Workbench.Proofs.Result
import Workbench.Proofs.Xml.Tag

namespace Workbench.Xml

/-! ### What a tag is -/

/-- Blank characters, or nothing. -/
def AreBlank (gap : List Char) : Prop :=
  ∀ c ∈ gap, isSpace c = true

/-- A key, an equals sign and a value in quotes, and what they mean. -/
inductive IsAttribute : String × String → List Char → Prop
  | mk {first quote : Char} {key before behind value content : List Char}
      (hfirst : isSpace first = false) (hkey : ∀ c ∈ key, inKey c = true)
      (hbefore : AreBlank before) (hbehind : AreBlank behind)
      (hquote : quote = '"' ∨ quote = '\'') (hvalue : ∀ c ∈ value, c ≠ quote)
      (hcontent : unescape value = .ok content) :
      IsAttribute (String.ofList (first :: key), String.ofList content)
        (first :: (key ++ (before ++ '=' :: (behind ++ quote :: (value ++ [quote])))))

/-- Attributes one behind the other, whether their names differ or not. -/
inductive AreAttributes : List (String × String) → List Char → Prop
  | nil {gap : List Char} (hgap : AreBlank gap) : AreAttributes [] gap
  | cons {entry : String × String} {entries : List (String × String)} {gap text more : List Char}
      (hgap : AreBlank gap) (h : IsAttribute entry text) (hmore : AreAttributes entries more) :
      AreAttributes (entry :: entries) (gap ++ (text ++ more))

/-- The content of a tag: its name, which ends at the first blank, and its attributes. -/
inductive IsTag : String × List (String × String) → List Char → Prop
  | mk {name text : List Char} {entries : List (String × String)}
      (hname : ∀ c ∈ name, isSpace c = false) (htext : ∀ c ∈ text.head?, isSpace c = true)
      (h : AreAttributes entries text) : IsTag (String.ofList name, entries) (name ++ text)

/-- Names that differ from each other and from the keys that have been met. -/
structure Fresh (seen : List (List Char × Nat)) (entries : List (String × String)) : Prop where
  distinct : (entries.map Prod.fst).Nodup
  unseen : ∀ entry ∈ entries, seen.lookup entry.1.toList = none

section Fresh

variable {seen : List (List Char × Nat)} {start : Nat} {entry : String × String}
  {entries : List (String × String)}

theorem fresh_nil_iff : Fresh [] entries ↔ (entries.map Prod.fst).Nodup :=
  ⟨Fresh.distinct, fun h => ⟨h, fun _ _ => rfl⟩⟩

theorem lookup_cons_eq_ite {α β : Type} [BEq α] [LawfulBEq α] [DecidableEq α] (entry : α × β)
    (rest : List (α × β)) (name : α) :
    (entry :: rest).lookup name = if name = entry.1 then some entry.2 else rest.lookup name := by
  rw [List.lookup_cons]
  by_cases h : name = entry.1
  · rw [if_pos h, beq_iff_eq.2 h]
  · rw [if_neg h, beq_eq_false_iff_ne.2 h]

theorem lookup_cons_eq_none_iff {key other : List Char} :
    ((key, start) :: seen).lookup other = none ↔ other ≠ key ∧ seen.lookup other = none := by
  rw [lookup_cons_eq_ite]
  by_cases h : other = key <;> simp [h]

/-- The first of the names is new, and so are the others, also when it has been met. -/
theorem fresh_cons_iff (start : Nat) : Fresh seen (entry :: entries) ↔
    seen.lookup entry.1.toList = none ∧ Fresh ((entry.1.toList, start) :: seen) entries := by
  constructor
  · rintro ⟨hdistinct, hunseen⟩
    obtain ⟨hnot, hdistinct⟩ := List.nodup_cons.1 hdistinct
    refine ⟨hunseen entry List.mem_cons_self, hdistinct, fun other hother => ?_⟩
    refine lookup_cons_eq_none_iff.2 ⟨fun heq => hnot ?_, hunseen other (.tail _ hother)⟩
    exact List.mem_map.2 ⟨other, hother, String.toList_injective heq⟩
  · rintro ⟨hentry, hdistinct, hunseen⟩
    refine ⟨List.nodup_cons.2 ⟨fun hmem => ?_, hdistinct⟩, ?_⟩
    · obtain ⟨other, hother, heq⟩ := List.mem_map.1 hmem
      exact (lookup_cons_eq_none_iff.1 (hunseen other hother)).1 (congrArg String.toList heq)
    · exact List.forall_mem_cons.2
        ⟨hentry, fun other hother => (lookup_cons_eq_none_iff.1 (hunseen other hother)).2⟩

end Fresh

/-! ### One attribute -/

section Attribute

variable {total position start : Nat} {seen : List (List Char × Nat)} {first : Char}
  {entry : String × String} {gap text more rest : List Char}

theorem walk_append {p : Char → Bool} (h : ∀ c ∈ gap, p c = true)
    (hrest : ∀ c ∈ rest.head?, p c = false) :
    (gap ++ rest).takeWhile p = gap ∧ (gap ++ rest).dropWhile p = rest := by
  cases rest with
  | nil =>
      rw [List.takeWhile_append_of_pos h, List.dropWhile_append_of_pos h]
      exact ⟨List.append_nil gap, rfl⟩
  | cons c rest =>
      exact ⟨takeWhile_append_stop h (hrest c rfl), dropWhile_append_stop h (hrest c rfl)⟩

/-- What is skipped is in front of the rest. -/
theorem Cursor.eq_append_skip (p : Char → Bool) (cursor : Cursor) :
    ∃ gap, (∀ c ∈ gap, p c = true) ∧ cursor.rest = gap ++ (cursor.skip p).rest :=
  ⟨_, List.all_eq_true.1 List.all_takeWhile, List.takeWhile_append_dropWhile.symm⟩

theorem expectEquals_append (total position : Nat) (hgap : AreBlank gap) (rest : List Char) :
    ∃ position', expectEquals total ⟨position, gap ++ '=' :: rest⟩ = .ok ⟨position', rest⟩ := by
  rw [expectEquals, Cursor.skip_append_stop position hgap (by decide)]
  exact ⟨_, rfl⟩

theorem readValue_append (total position : Nat) {quote : Char} {value : List Char}
    (hgap : AreBlank gap) (hquote : quote = '"' ∨ quote = '\'') (hvalue : ∀ c ∈ value, c ≠ quote)
    (rest : List Char) :
    ∃ position', readValue total ⟨position, gap ++ quote :: (value ++ quote :: rest)⟩ =
      .ok (value, ⟨position', rest⟩) := by
  have hinside : ∀ c ∈ value, (c != quote) = true := fun c hc => bne_iff_ne.2 (hvalue c hc)
  have hend : (quote != quote) = false := bne_self_eq_false quote
  have hblank : isSpace quote = false := by rcases hquote with rfl | rfl <;> decide
  rw [readValue, Cursor.skip_append_stop position hgap hblank]
  simp only [if_pos hquote, dropWhile_append_stop hinside hend, takeWhile_append_stop hinside hend]
  exact ⟨_, rfl⟩

theorem IsAttribute.exists_cons (h : IsAttribute entry text) :
    ∃ first others, text = first :: others ∧ isSpace first = false := by
  cases h with
  | mk hfirst => exact ⟨_, _, rfl, hfirst⟩

/-- A key is read up to the equals sign, and then looked for among those that have been met. -/
theorem IsAttribute.readAttribute_eq (h : IsAttribute entry (first :: text)) (total start : Nat)
    (seen : List (List Char × Nat)) (more : List Char) :
    (∀ previous, seen.lookup entry.1.toList = some previous →
      readAttribute total seen start first (text ++ more) = .error (.duplicate start previous)) ∧
    (seen.lookup entry.1.toList = none →
      ∃ value next content, readAttribute total seen start first (text ++ more) =
          .ok ⟨start, entry.1.toList, value, ⟨next, more⟩⟩ ∧
        unescape value = .ok content ∧ entry.2 = String.ofList content) := by
  cases h with
  | mk hfirst hkey hbefore hbehind hquote hvalue hcontent =>
      rename_i quote key before behind value content
      have hstop : ∀ c ∈ (before ++ '=' :: (behind ++ quote :: (value ++ quote :: more))).head?,
          inKey c = false := by
        cases before with
        | nil =>
            rintro c ⟨⟩
            rfl
        | cons d before =>
            rintro c ⟨⟩
            rw [inKey, hbefore _ List.mem_cons_self]
            exact Bool.and_false _
      have htext : key ++ (before ++ '=' :: (behind ++ quote :: (value ++ [quote]))) ++ more =
          key ++ (before ++ '=' :: (behind ++ quote :: (value ++ quote :: more))) := by simp
      obtain ⟨htake, hdrop⟩ := walk_append hkey hstop
      obtain ⟨afterEquals, hequals⟩ := expectEquals_append total
        (start + Utf8.byteSize (first :: key)) hbefore (behind ++ quote :: (value ++ quote :: more))
      obtain ⟨next, hread⟩ := readValue_append total afterEquals hbehind hquote hvalue more
      rw [String.toList_ofList, htext]
      unfold readAttribute
      simp only [htake, hdrop, hequals, bind, Except.bind]
      refine ⟨fun previous hprevious => ?_, fun hnone => ⟨value, next, content, ?_, hcontent, rfl⟩⟩
      · rw [hprevious]
      · rw [hnone]
        simp only [hread]
        rfl

theorem exists_of_expectEquals {cursor next : Cursor}
    (h : expectEquals total cursor = .ok next) :
    ∃ gap, AreBlank gap ∧ cursor.rest = gap ++ '=' :: next.rest := by
  obtain ⟨gap, hgap, hrest⟩ := cursor.eq_append_skip isSpace
  unfold expectEquals at h
  split at h
  · rename_i heq
    cases h
    exact ⟨gap, hgap, hrest.trans (by rw [heq])⟩
  · cases h
  · cases h

theorem exists_of_readValue {cursor next : Cursor} {value : List Char}
    (h : readValue total cursor = .ok (value, next)) :
    ∃ gap quote, AreBlank gap ∧ (quote = '"' ∨ quote = '\'') ∧ (∀ c ∈ value, c ≠ quote) ∧
      cursor.rest = gap ++ quote :: (value ++ quote :: next.rest) := by
  obtain ⟨gap, hgap, hrest⟩ := cursor.eq_append_skip isSpace
  unfold readValue at h
  split at h
  · cases h
  · rename_i quote body heq
    split at h
    · rename_i hquote
      split at h
      · cases h
      · rename_i c behind hbehind
        cases h
        have hend := List.head?_dropWhile_not (· != quote) body
        rw [hbehind] at hend
        obtain rfl : c = quote := by simpa using hend
        refine ⟨gap, c, hgap, hquote, fun d hd => ?_, ?_⟩
        · exact bne_iff_ne.1 (List.all_eq_true.1 List.all_takeWhile d hd)
        · rw [hrest, heq, ← hbehind, List.takeWhile_append_dropWhile]
    · cases h

/-- What is read as an attribute is one, with a key that has not been met before. -/
theorem exists_of_readAttribute {raw : RawAttribute} {content : List Char}
    (hfirst : isSpace first = false)
    (h : readAttribute total seen start first rest = .ok raw)
    (hcontent : unescape raw.value = .ok content) :
    ∃ text, IsAttribute (String.ofList raw.key, String.ofList content) (first :: text) ∧
      rest = text ++ raw.next.rest ∧ seen.lookup raw.key = none := by
  obtain ⟨afterEquals, hequals, hmore⟩ := bind_eq_ok.1 h
  dsimp only at hmore
  split at hmore
  · cases hmore
  · rename_i hnone
    obtain ⟨⟨value, next⟩, hread, hpure⟩ := bind_eq_ok.1 hmore
    cases hpure
    obtain ⟨before, hbefore, hrest⟩ := exists_of_expectEquals hequals
    obtain ⟨behind, quote, hbehind, hquote, hvalue, hnext⟩ := exists_of_readValue hread
    refine ⟨_, .mk hfirst (List.all_eq_true.1 List.all_takeWhile) hbefore hbehind hquote hvalue
      hcontent, ?_, hnone⟩
    calc rest = rest.takeWhile inKey ++ rest.dropWhile inKey := List.takeWhile_append_dropWhile.symm
      _ = rest.takeWhile inKey ++ (before ++ '=' :: (behind ++ quote :: (value ++ quote ::
            next.rest))) := congrArg _ (hrest.trans (by rw [hnext]))
      _ = _ := by simp

end Attribute

/-! ### All attributes -/

section Attributes

variable {total : Nat} {seen : List (List Char × Nat)} {entries : List (String × String)}
  {text : List Char} {cursor : Cursor}

theorem attributesFrom_error {first : Char} {rest : List Char} {fault : AttributeFault}
    (hrest : (cursor.skip isSpace).rest = first :: rest)
    (h : readAttribute total seen (cursor.skip isSpace).position first rest = .error fault) :
    attributesFrom total seen cursor = .error (.attribute fault) := by
  rw [attributesFrom]
  split
  · rename_i hnil
    rw [hrest] at hnil
    cases hnil
  · rename_i hcons
    rw [hrest] at hcons
    cases hcons
    split
    · rename_i hfault
      rw [h] at hfault
      cases hfault
      rfl
    · rename_i hraw
      rw [h] at hraw
      cases hraw

/-- **Attributes are read one by one, all and in their order, unless a name occurs again.** -/
theorem AreAttributes.attributesFrom_eq (h : AreAttributes entries text) (total : Nat) :
    ∀ (seen : List (List Char × Nat)) (position : Nat),
      (Fresh seen entries → attributesFrom total seen ⟨position, text⟩ = .ok entries) ∧
      (¬ Fresh seen entries → ∃ start previous, attributesFrom total seen ⟨position, text⟩ =
        .error (.attribute (.duplicate start previous))) := by
  induction h with
  | nil hgap =>
      intro seen position
      refine ⟨fun _ => ?_, fun hnot => absurd ⟨List.nodup_nil, nofun⟩ hnot⟩
      rw [attributesFrom]
      split
      · rfl
      · rename_i heq
        rw [Cursor.skip, List.dropWhile_eq_nil_iff.2 hgap] at heq
        cases heq
  | @cons entry entries gap text more hgap h hmore ih =>
      intro seen position
      obtain ⟨first, others, rfl, hfirst⟩ := h.exists_cons
      have hskip : Cursor.skip isSpace ⟨position, gap ++ (first :: others ++ more)⟩ =
          ⟨position + Utf8.byteSize gap, first :: (others ++ more)⟩ :=
        Cursor.skip_append_stop position hgap hfirst
      obtain ⟨hmet, hnew⟩ := h.readAttribute_eq total (position + Utf8.byteSize gap) seen more
      cases hlookup : seen.lookup entry.1.toList with
      | some previous =>
          refine ⟨fun hfresh => ?_, fun _ => ⟨position + Utf8.byteSize gap, previous, ?_⟩⟩
          · rw [hfresh.unseen entry List.mem_cons_self] at hlookup
            cases hlookup
          · exact attributesFrom_error (by rw [hskip]) (by rw [hskip]; exact hmet previous hlookup)
      | none =>
          obtain ⟨value, next, content, hread, hvalue, hcontent⟩ := hnew hlookup
          have hall := attributesFrom_cons (by rw [hskip]) (by rw [hskip]; exact hread) hvalue
          obtain ⟨hok, herror⟩ := ih ((entry.1.toList, _) :: seen) next
          rw [fresh_cons_iff (position + Utf8.byteSize gap), hall]
          refine ⟨fun hfresh => ?_, fun hnot => ?_⟩
          · rw [hok hfresh.2, String.ofList_toList, ← hcontent]
            rfl
          · obtain ⟨start, previous, hduplicate⟩ := herror fun hfresh => hnot ⟨hlookup, hfresh⟩
            exact ⟨start, previous, by rw [hduplicate]; rfl⟩

theorem areAttributes_of_attributesFrom (h : attributesFrom total seen cursor = .ok entries) :
    AreAttributes entries cursor.rest ∧ Fresh seen entries := by
  fun_induction attributesFrom total seen cursor generalizing entries with
  | case1 seen cursor hnil =>
      cases h
      obtain ⟨gap, hgap, hcursor⟩ := cursor.eq_append_skip isSpace
      rw [hcursor, hnil, List.append_nil]
      exact ⟨.nil hgap, List.nodup_nil, nofun⟩
  | case2 => cases h
  | case3 => cases h
  | case4 seen cursor first rest hrest raw hraw value hvalue ih =>
      obtain ⟨more, hmore, hpure⟩ := bind_eq_ok.1 h
      cases hpure
      obtain ⟨gap, hgap, hcursor⟩ := cursor.eq_append_skip isSpace
      have hfirst : isSpace first = false := by
        have hhead := List.head?_dropWhile_not isSpace cursor.rest
        rw [show cursor.rest.dropWhile isSpace = first :: rest from hrest] at hhead
        exact hhead
      obtain ⟨text, hattribute, rfl, hnone⟩ := exists_of_readAttribute hfirst hraw hvalue
      obtain ⟨hmore, hfresh⟩ := ih hmore
      rw [hcursor, hrest]
      refine ⟨.cons hgap hattribute hmore, (fresh_cons_iff raw.start).2 ?_⟩
      rw [String.toList_ofList]
      exact ⟨hnone, hfresh⟩

end Attributes

/-! ### The content of a tag -/

section Tag

variable {tag : String × List (String × String)} {content : List Char}

/-- **A tag is read if its names differ, and if not, a name that occurs again is the fault.** -/
theorem IsTag.readTag_eq (h : IsTag tag content) :
    ((tag.2.map Prod.fst).Nodup → readTag content = .ok tag) ∧
      (¬ (tag.2.map Prod.fst).Nodup → ∃ start previous,
        readTag content = .error (.attribute (.duplicate start previous))) := by
  cases h with
  | @mk name text entries hname htext h =>
      have hinside : ∀ c ∈ name, inName c = true := fun c hc => by rw [inName, hname c hc]; rfl
      have hstop : ∀ c ∈ text.head?, inName c = false := fun c hc => by
        rw [inName, htext c hc]
        rfl
      obtain ⟨htake, hdrop⟩ := walk_append hinside hstop
      obtain ⟨hok, herror⟩ := h.attributesFrom_eq (Utf8.byteSize (name ++ text)) []
        (0 + Utf8.byteSize name)
      unfold readTag
      simp only [Cursor.skip, tagName, htake, hdrop, ← fresh_nil_iff]
      refine ⟨fun hfresh => ?_, fun hnot => ?_⟩
      · rw [hok hfresh]
        rfl
      · obtain ⟨start, previous, hduplicate⟩ := herror hnot
        exact ⟨start, previous, by rw [hduplicate]; rfl⟩

theorem isTag_of_readTag (h : readTag content = .ok tag) :
    IsTag tag content ∧ (tag.2.map Prod.fst).Nodup := by
  obtain ⟨entries, hentries, hpure⟩ := bind_eq_ok.1 h
  cases hpure
  obtain ⟨hattributes, hfresh⟩ := areAttributes_of_attributesFrom hentries
  refine ⟨?_, hfresh.distinct⟩
  have hname : ∀ c ∈ content.takeWhile inName, isSpace c = false := by
    intro c hc
    simpa [inName] using List.all_eq_true.1 List.all_takeWhile c hc
  have htext : ∀ c ∈ (content.dropWhile inName).head?, isSpace c = true := by
    intro c hc
    have hhead := List.head?_dropWhile_not inName content
    rw [Option.mem_def.1 hc] at hhead
    simpa [inName] using hhead
  have hall := IsTag.mk hname htext hattributes
  rwa [List.takeWhile_append_dropWhile] at hall

end Tag

end Workbench.Xml
