/-
Tags: how they are written, and that they are read as written.

A name is clean if none of its characters means anything to the reader: no blank, bracket, slash,
equals sign, quote or mark.  Fields with a clean tag and with clean attribute names, none of them
twice, are `Clean`; nothing is asked of values and character data, because these are escaped.

Two layers of the reader look at a tag.  The outer one cuts it at the first closing bracket
outside of quotes (`cutTag_content`), the inner one reads the name and the attributes off what has
been cut (`readTag_content`).  Both follow from where their characters are allowed to stand, so
the round trip of a tag is a walk along the text with one lemma per step of the reader.
-/
import Workbench.Proofs.Xml.Reference
import Workbench.Xml.Markup
import Workbench.Xml.Writer

namespace Workbench.Xml

/-! ### Clean names -/

/-- A character that may occur in a clean name. -/
def isNameChar (c : Char) : Bool :=
  !isSpace c && c != '<' && c != '>' && c != '/' && c != '=' && c != '&' && c != '!' && c != '?' &&
    c != '\'' && c != '"'

/-- A name of characters without a meaning in markup. -/
def CleanName (name : String) : Prop :=
  name ≠ "" ∧ ∀ c ∈ name.toList, isNameChar c = true

instance (name : String) : Decidable (CleanName name) :=
  decidable_of_iff (name ≠ "" ∧ name.toList.all isNameChar = true)
    (and_congr_right fun _ => List.all_eq_true)

/-- Fields whose names are clean and whose attributes are told apart by their names. -/
structure Fields.Clean (fields : Fields) : Prop where
  tag : CleanName fields.tag
  names : ∀ entry ∈ fields.attributes, CleanName entry.1
  distinct : (fields.attributes.map Prod.fst).Nodup

instance (fields : Fields) : Decidable fields.Clean :=
  decidable_of_iff
    (CleanName fields.tag ∧ (∀ entry ∈ fields.attributes, CleanName entry.1) ∧
      (fields.attributes.map Prod.fst).Nodup)
    ⟨fun h => ⟨h.1, h.2.1, h.2.2⟩, fun h => ⟨h.tag, h.names, h.distinct⟩⟩

/-- What a character of a clean name is not. -/
theorem ne_of_isNameChar {c : Char} (h : isNameChar c = true) :
    isSpace c = false ∧ c ≠ '<' ∧ c ≠ '>' ∧ c ≠ '/' ∧ c ≠ '=' ∧ c ≠ '!' ∧ c ≠ '?' ∧ c ≠ '\'' ∧
      c ≠ '"' := by
  simp only [isNameChar, Bool.and_eq_true, bne_iff_ne, Bool.not_eq_true'] at h
  obtain ⟨⟨⟨⟨⟨⟨⟨⟨⟨hspace, hlt⟩, hgt⟩, hslash⟩, heq⟩, -⟩, hmark⟩, hask⟩, hsingle⟩, hdouble⟩ := h
  exact ⟨hspace, hlt, hgt, hslash, heq, hmark, hask, hsingle, hdouble⟩

/-- A clean name has a first character. -/
theorem CleanName.exists_cons {name : String} (h : CleanName name) :
    ∃ c cs, name.toList = c :: cs := by
  cases hname : name.toList with
  | nil => exact absurd (String.toList_eq_nil_iff.1 hname) h.1
  | cons c cs => exact ⟨c, cs, rfl⟩

/-! ### Walking along a text -/

section Walk

variable {p : Char → Bool} {before rest : List Char} {stop : Char}

theorem takeWhile_append_stop (h : ∀ c ∈ before, p c = true) (hstop : p stop = false) :
    (before ++ stop :: rest).takeWhile p = before := by
  rw [List.takeWhile_append_of_pos h, List.takeWhile_cons_of_neg (by simp [hstop]),
    List.append_nil]

theorem dropWhile_append_stop (h : ∀ c ∈ before, p c = true) (hstop : p stop = false) :
    (before ++ stop :: rest).dropWhile p = stop :: rest := by
  rw [List.dropWhile_append_of_pos h, List.dropWhile_cons_of_neg (by simp [hstop])]

theorem Cursor.skip_append_stop (position : Nat) (h : ∀ c ∈ before, p c = true)
    (hstop : p stop = false) :
    Cursor.skip p ⟨position, before ++ stop :: rest⟩
      = ⟨position + Utf8.byteSize before, stop :: rest⟩ := by
  simp only [Cursor.skip, takeWhile_append_stop h hstop, dropWhile_append_stop h hstop]

/-- Where the first character stops the walk already, the cursor stays. -/
theorem Cursor.skip_stop (position : Nat) (hstop : p stop = false) :
    Cursor.skip p ⟨position, stop :: rest⟩ = ⟨position, stop :: rest⟩ := by
  have h : Cursor.skip p ⟨position, [] ++ stop :: rest⟩
      = ⟨position + Utf8.byteSize [], stop :: rest⟩ :=
    Cursor.skip_append_stop position (by simp) hstop
  simpa [Utf8.byteSize] using h

end Walk

/-! ### One attribute -/

theorem expectEquals_equals (total position : Nat) (rest : List Char) :
    expectEquals total ⟨position, '=' :: rest⟩ = .ok ⟨position + 1, rest⟩ := by
  unfold expectEquals
  rw [Cursor.skip_stop position (by decide)]
  rfl

theorem readValue_quoted (total position : Nat) {value : List Char} (rest : List Char)
    (h : ∀ c ∈ value, c ≠ '"') :
    readValue total ⟨position, '"' :: value ++ '"' :: rest⟩
      = .ok (value, ⟨position + 1 + Utf8.byteSize value + 1, rest⟩) := by
  have hinside : ∀ c ∈ value, (c != '"') = true := fun c hc => bne_iff_ne.2 (h c hc)
  have hend : (('"' : Char) != '"') = false := by decide
  unfold readValue
  rw [List.cons_append, Cursor.skip_stop position (by decide)]
  simp only [true_or, if_true]
  rw [dropWhile_append_stop hinside hend, takeWhile_append_stop hinside hend]

/-- An attribute as it is written is read, unless its name has been seen before. -/
theorem readAttribute_written (total start : Nat) {seen : List (List Char × Nat)} {first : Char}
    {name value : List Char} (rest : List Char) (hname : ∀ c ∈ name, isNameChar c = true)
    (hvalue : ∀ c ∈ value, c ≠ '"') (hseen : seen.lookup (first :: name) = none) :
    ∃ next, readAttribute total seen start first (name ++ '=' :: '"' :: value ++ '"' :: rest)
      = .ok ⟨start, first :: name, value, ⟨next, rest⟩⟩ := by
  have hkey : ∀ c ∈ name, inKey c = true := by
    intro c hc
    obtain ⟨hspace, -, -, -, heq, -⟩ := ne_of_isNameChar (hname c hc)
    simp [inKey, hspace, heq]
  have hstop : inKey '=' = false := by decide
  unfold readAttribute
  simp only [List.append_assoc, List.cons_append, takeWhile_append_stop hkey hstop,
    dropWhile_append_stop hkey hstop, expectEquals_equals]
  simp only [bind, Except.bind, hseen]
  have hread := readValue_quoted total (start + Utf8.byteSize (first :: name) + 1) rest hvalue
  rw [List.cons_append] at hread
  rw [hread]
  exact ⟨_, rfl⟩

/-! ### All attributes -/

/-- One attribute that can be read is put before those that follow it. -/
theorem attributesFrom_cons {total : Nat} {seen : List (List Char × Nat)} {cursor : Cursor}
    {first : Char} {rest value : List Char} {raw : RawAttribute}
    (hrest : (cursor.skip isSpace).rest = first :: rest)
    (hraw : readAttribute total seen (cursor.skip isSpace).position first rest = .ok raw)
    (hvalue : unescape raw.value = .ok value) :
    attributesFrom total seen cursor =
      (attributesFrom total ((raw.key, raw.start) :: seen) raw.next).map
        ((String.ofList raw.key, String.ofList value) :: ·) := by
  rw [attributesFrom]
  split
  · rename_i hnil
    rw [hrest] at hnil
    cases hnil
  · rename_i first' rest' hcons
    rw [hrest] at hcons
    cases hcons
    split
    · rename_i fault hfault
      rw [hraw] at hfault
      cases hfault
    · rename_i raw' hraw'
      rw [hraw] at hraw'
      cases hraw'
      rw [hvalue]
      cases attributesFrom total ((raw.key, raw.start) :: seen) raw.next <;> rfl

/-- A name that is not the one just read has been seen no more than before. -/
theorem lookup_toList_cons {name other : String} {seen : List (List Char × Nat)} {start : Nat}
    (hne : other ≠ name) (h : seen.lookup other.toList = none) :
    ((name.toList, start) :: seen).lookup other.toList = none := by
  have hlist : (other.toList == name.toList) = false :=
    beq_eq_false_iff_ne.2 fun heq => hne (String.toList_injective heq)
  rw [List.lookup_cons, hlist]
  exact h

/-- The attributes that follow are read as written, whatever names have been seen before, as long
as none of them occurs again. -/
theorem attributesFrom_written (total : Nat) (attributes : Attributes)
    (hnames : ∀ entry ∈ attributes, CleanName entry.1)
    (hdistinct : (attributes.map Prod.fst).Nodup) :
    ∀ (seen : List (List Char × Nat)) (position : Nat),
      (∀ entry ∈ attributes, seen.lookup entry.1.toList = none) →
      attributesFrom total seen ⟨position, attributes.flatMap attributeText⟩ = .ok attributes := by
  induction attributes with
  | nil =>
      intro seen position _
      rw [List.flatMap_nil, attributesFrom]
      simp [Cursor.skip]
  | cons entry attributes ih =>
      intro seen position hseen
      obtain ⟨name, value⟩ := entry
      have hname : CleanName name := hnames (name, value) (by simp)
      obtain ⟨first, others, hlist⟩ := hname.exists_cons
      have hfirst : isSpace first = false :=
        (ne_of_isNameChar (hname.2 first (by simp [hlist]))).1
      have hothers : ∀ c ∈ others, isNameChar c = true :=
        fun c hc => hname.2 c (by simp [hlist, hc])
      have hvalue : ∀ c ∈ escapeValue value.toList, c ≠ '"' :=
        fun c hc => (ne_of_mem_escapeValue hc).2.2
      have hfresh : seen.lookup (first :: others) = none := by
        rw [← hlist]
        exact hseen (name, value) (by simp)
      -- The space before the attribute is what the cursor skips.
      have hskip :
          Cursor.skip isSpace ⟨position, ((name, value) :: attributes).flatMap attributeText⟩
            = ⟨position + Utf8.byteSize [' '], first :: (others ++ '=' :: '"' ::
                escapeValue value.toList ++ '"' :: attributes.flatMap attributeText)⟩ := by
        have htext : ((name, value) :: attributes).flatMap attributeText
            = [' '] ++ first :: (others ++ '=' :: '"' :: escapeValue value.toList ++
                '"' :: attributes.flatMap attributeText) := by
          simp [attributeText, hlist]
        rw [htext]
        exact Cursor.skip_append_stop position (by simp [isSpace]) hfirst
      obtain ⟨next, hraw⟩ := readAttribute_written total (position + Utf8.byteSize [' '])
        (attributes.flatMap attributeText) hothers hvalue hfresh
      rw [attributesFrom_cons (by rw [hskip]) (by rw [hskip]; exact hraw)
        (unescape_escapeValue value.toList)]
      simp only [List.map_cons, List.nodup_cons] at hdistinct
      rw [ih (fun entry hentry => hnames entry (by simp [hentry])) hdistinct.2]
      · simp [Except.map, ← hlist]
      · intro entry hentry
        rw [← hlist]
        refine lookup_toList_cons ?_ (hseen entry (by simp [hentry]))
        rintro rfl
        exact hdistinct.1 (List.mem_map_of_mem hentry)

/-! ### The content of a tag -/

/-- What stands between the brackets of an opening tag. -/
def Fields.content (fields : Fields) : List Char :=
  fields.tag.toList ++ fields.attributes.flatMap attributeText

theorem Fields.tagStart_eq (fields : Fields) : fields.tagStart = '<' :: fields.content := rfl

/-- The name of a tag ends where its attributes begin. -/
theorem takeWhile_attributes (attributes : Attributes) :
    (attributes.flatMap attributeText).takeWhile inName = [] := by
  cases attributes with
  | nil => rfl
  | cons entry attributes => simp [attributeText, inName, isSpace]

theorem dropWhile_attributes (attributes : Attributes) :
    (attributes.flatMap attributeText).dropWhile inName
      = attributes.flatMap attributeText := by
  cases attributes with
  | nil => rfl
  | cons entry attributes => simp [attributeText, inName, isSpace]

/-- **A tag is read as it is written.** -/
theorem readTag_content {fields : Fields} (h : fields.Clean) :
    readTag fields.content = .ok (fields.tag, fields.attributes) := by
  have hinside : ∀ c ∈ fields.tag.toList, inName c = true := by
    intro c hc
    rw [inName, (ne_of_isNameChar (h.tag.2 c hc)).1]
    rfl
  have hname : fields.content.takeWhile inName = fields.tag.toList := by
    rw [Fields.content, List.takeWhile_append_of_pos hinside, takeWhile_attributes,
      List.append_nil]
  have hrest : fields.content.dropWhile inName
      = fields.attributes.flatMap attributeText := by
    rw [Fields.content, List.dropWhile_append_of_pos hinside, dropWhile_attributes]
  unfold readTag
  simp only [Cursor.skip, tagName, hname, hrest]
  rw [attributesFrom_written _ fields.attributes h.names h.distinct [] _ (by simp)]
  simp [bind, Except.bind, pure, Except.pure]

/-! ### Cutting a tag -/

/-- Text without a closing bracket is passed over, whatever quotes it opens or closes. -/
theorem cutTag_append {text : List Char} (h : ∀ c ∈ text, c ≠ '>') (rest : List Char) :
    ∀ quote, cutTag quote (text ++ rest) =
      (cutTag (text.foldl quoteAfter quote) rest).map fun cut => (text ++ cut.1, cut.2) := by
  induction text with
  | nil =>
      intro quote
      simp
  | cons c text ih =>
      intro quote
      have hc : ¬(quote = none ∧ c = '>') := fun hboth => h c (by simp) hboth.2
      rw [List.cons_append, cutTag, if_neg hc, ih (fun d hd => h d (by simp [hd]))]
      rw [List.foldl_cons, Option.map_map]
      rfl

/-- A tag ends at the first bracket behind text that has no bracket and closes its quotes. -/
theorem cutTag_closed {text : List Char} (h : ∀ c ∈ text, c ≠ '>')
    (hquotes : text.foldl quoteAfter none = none) (rest : List Char) :
    cutTag none (text ++ '>' :: rest) = some (text, rest) := by
  rw [cutTag_append h, hquotes, cutTag, if_pos ⟨rfl, rfl⟩]
  simp

/-- Text without quotes leaves no quote open. -/
theorem foldl_quoteAfter_none {text : List Char} (h : ∀ c ∈ text, c ≠ '"' ∧ c ≠ '\'') :
    text.foldl quoteAfter none = none := by
  induction text with
  | nil => rfl
  | cons c text ih =>
      have hc : quoteAfter none c = none := by simp [quoteAfter, h c (by simp)]
      rw [List.foldl_cons, hc]
      exact ih fun d hd => h d (by simp [hd])

/-- A quote that is open stays open until it occurs again. -/
theorem foldl_quoteAfter_some {quote : Char} {text : List Char} (h : ∀ c ∈ text, c ≠ quote) :
    text.foldl quoteAfter (some quote) = some quote := by
  induction text with
  | nil => rfl
  | cons c text ih =>
      have hc : quoteAfter (some quote) c = some quote := by simp [quoteAfter, h c (by simp)]
      rw [List.foldl_cons, hc]
      exact ih fun d hd => h d (by simp [hd])

theorem foldl_quoteAfter_name {name : String} (h : CleanName name) :
    name.toList.foldl quoteAfter none = none := by
  refine foldl_quoteAfter_none fun c hc => ?_
  obtain ⟨-, -, -, -, -, -, -, hsingle, hdouble⟩ := ne_of_isNameChar (h.2 c hc)
  exact ⟨hdouble, hsingle⟩

/-- An attribute closes the quotes that it opens. -/
theorem foldl_quoteAfter_attribute {entry : String × String} (h : CleanName entry.1) :
    (attributeText entry).foldl quoteAfter none = none := by
  have hvalue : ∀ c ∈ escapeValue entry.2.toList, c ≠ '"' :=
    fun c hc => (ne_of_mem_escapeValue hc).2.2
  simp only [attributeText, List.cons_append, List.append_assoc, List.foldl_cons,
    List.foldl_append, List.foldl_nil, List.nil_append]
  rw [show quoteAfter none ' ' = none from rfl, foldl_quoteAfter_name h,
    show quoteAfter none '=' = none from rfl, show quoteAfter none '"' = some '"' from rfl,
    foldl_quoteAfter_some hvalue]
  rfl

theorem foldl_quoteAfter_content {fields : Fields} (h : fields.Clean) :
    fields.content.foldl quoteAfter none = none := by
  have hattributes : ∀ attributes : Attributes, (∀ entry ∈ attributes, CleanName entry.1) →
      (attributes.flatMap attributeText).foldl quoteAfter none = none := by
    intro attributes
    induction attributes with
    | nil =>
        intro _
        rfl
    | cons entry attributes ih =>
        intro hnames
        rw [List.flatMap_cons, List.foldl_append,
          foldl_quoteAfter_attribute (hnames entry (by simp))]
        exact ih fun other hother => hnames other (by simp [hother])
  rw [Fields.content, List.foldl_append, foldl_quoteAfter_name h.tag]
  exact hattributes fields.attributes h.names

/-- There is no closing bracket in what stands between the brackets of a tag. -/
theorem ne_close_of_mem_content {fields : Fields} (h : fields.Clean) :
    ∀ c ∈ fields.content, c ≠ '>' := by
  intro c hc
  rcases List.mem_append.1 hc with htag | hattributes
  · exact (ne_of_isNameChar (h.tag.2 c htag)).2.2.1
  · obtain ⟨entry, hentry, hc⟩ := List.mem_flatMap.1 hattributes
    simp only [attributeText, List.cons_append, List.append_assoc, List.mem_cons,
      List.mem_append, List.nil_append, List.not_mem_nil, or_false] at hc
    rcases hc with rfl | hname | rfl | rfl | hvalue | rfl
    · decide
    · exact (ne_of_isNameChar ((h.names entry hentry).2 c hname)).2.2.1
    · decide
    · decide
    · exact (ne_of_mem_escapeValue hvalue).2.1
    · decide

end Workbench.Xml
