/-
White space, and the text between the white space at both ends.

Two notions of white space occur in the library.  Markup knows four blank characters
(see `Xml.Markup`); everywhere else a character is blank when it has the Unicode property
White_Space, which is the table here.
-/

namespace Workbench.Text

/-- A character with the Unicode property White_Space. -/
def isBlank (c : Char) : Bool :=
  (0x09 ≤ c.toNat && c.toNat ≤ 0x0D) || c.toNat == 0x20 || c.toNat == 0x85 || c.toNat == 0xA0 ||
  c.toNat == 0x1680 || (0x2000 ≤ c.toNat && c.toNat ≤ 0x200A) || c.toNat == 0x2028 ||
  c.toNat == 0x2029 || c.toNat == 0x202F || c.toNat == 0x205F || c.toNat == 0x3000

/-- The text without the blanks it ends in. -/
def trimEnd (cs : List Char) : List Char :=
  (cs.reverse.dropWhile isBlank).reverse

/-- The text between the blanks at both ends. -/
def trim (cs : List Char) : List Char :=
  trimEnd (cs.dropWhile isBlank)

/-- A text of blanks only, the empty text included. -/
def allBlank (cs : List Char) : Bool :=
  cs.all isBlank

theorem allBlank_iff {cs : List Char} : allBlank cs = true ↔ ∀ c ∈ cs, isBlank c = true :=
  List.all_eq_true

theorem allBlank_append {cs ds : List Char} (hcs : allBlank cs = true)
    (hds : allBlank ds = true) : allBlank (cs ++ ds) = true := by
  simp only [allBlank, List.all_append, Bool.and_eq_true] at hcs hds ⊢
  exact ⟨hcs, hds⟩

/-! ### Blanks at the ends do not count -/

theorem dropWhile_allBlank {blanks : List Char} (h : allBlank blanks = true) (cs : List Char) :
    (blanks ++ cs).dropWhile isBlank = cs.dropWhile isBlank :=
  List.dropWhile_append_of_pos (allBlank_iff.1 h)

theorem trim_allBlank {blanks : List Char} (h : allBlank blanks = true) : trim blanks = [] := by
  have hdrop := dropWhile_allBlank h []
  rw [List.append_nil] at hdrop
  rw [trim, hdrop]
  rfl

theorem trim_blank_append {blanks : List Char} (h : allBlank blanks = true) (cs : List Char) :
    trim (blanks ++ cs) = trim cs := by
  rw [trim, dropWhile_allBlank h, trim]

theorem trimEnd_append_blank {blanks : List Char} (h : allBlank blanks = true) (cs : List Char) :
    trimEnd (cs ++ blanks) = trimEnd cs := by
  have hreverse : allBlank blanks.reverse = true := by
    rw [allBlank, List.all_reverse]
    exact h
  rw [trimEnd, List.reverse_append, dropWhile_allBlank hreverse, trimEnd]

theorem trim_append_blank {blanks : List Char} (h : allBlank blanks = true) (cs : List Char) :
    trim (cs ++ blanks) = trim cs := by
  rw [trim, List.dropWhile_append]
  split
  · rename_i hnil
    -- Nothing but blanks on either side.
    have hblank := dropWhile_allBlank h []
    rw [List.append_nil] at hblank
    rw [hblank, trim, List.isEmpty_iff.1 hnil]
    rfl
  · rw [trimEnd_append_blank h, trim]

/-! ### Trimming takes all blanks from the ends, and nothing else -/

/-- A text stands between blanks, and has none at its own ends. -/
structure IsTrimmed (cs middle : List Char) : Prop where
  around : ∃ before behind, allBlank before = true ∧ allBlank behind = true ∧
    cs = before ++ (middle ++ behind)
  head : ∀ c ∈ middle.head?, isBlank c = false
  last : ∀ c ∈ middle.getLast?, isBlank c = false

theorem isBlank_head?_dropWhile (cs : List Char) :
    ∀ c ∈ (cs.dropWhile isBlank).head?, isBlank c = false := by
  intro c hc
  have hhead := List.head?_dropWhile_not isBlank cs
  rw [Option.mem_def.1 hc] at hhead
  exact hhead

theorem allBlank_takeWhile (cs : List Char) : allBlank (cs.takeWhile isBlank) = true :=
  allBlank_iff.2 fun _ hc => List.all_eq_true.1 List.all_takeWhile _ hc

theorem isTrimmed_trim (cs : List Char) : IsTrimmed cs (trim cs) := by
  let inner := cs.dropWhile isBlank
  let behind := (inner.reverse.takeWhile isBlank).reverse
  have hinner : trim cs ++ behind = inner := by
    rw [trim, trimEnd, ← List.reverse_append, List.takeWhile_append_dropWhile, List.reverse_reverse]
  constructor
  · refine ⟨cs.takeWhile isBlank, behind, allBlank_takeWhile cs, ?_, ?_⟩
    · rw [allBlank, List.all_reverse]
      exact allBlank_takeWhile inner.reverse
    · rw [hinner, List.takeWhile_append_dropWhile]
  · intro c hc
    refine isBlank_head?_dropWhile cs c ?_
    show inner.head? = some c
    rw [← hinner, List.head?_append, Option.mem_def.1 hc]
    rfl
  · intro c hc
    rw [trim, trimEnd, List.getLast?_reverse] at hc
    exact isBlank_head?_dropWhile inner.reverse c hc

theorem dropWhile_eq_self {cs : List Char} (h : ∀ c ∈ cs.head?, isBlank c = false) :
    cs.dropWhile isBlank = cs := by
  cases cs with
  | nil => rfl
  | cons c cs => rw [List.dropWhile_cons_of_neg (Bool.eq_false_iff.1 (h c rfl))]

theorem IsTrimmed.trim_eq {cs middle : List Char} (h : IsTrimmed cs middle) :
    trim cs = middle := by
  obtain ⟨before, behind, hbefore, hbehind, rfl⟩ := h.around
  have hreverse : ∀ c ∈ middle.reverse.head?, isBlank c = false := by
    rw [List.head?_reverse]
    exact h.last
  rw [trim_blank_append hbefore, trim_append_blank hbehind, trim, dropWhile_eq_self h.head, trimEnd,
    dropWhile_eq_self hreverse, List.reverse_reverse]

/-- **What is left of a text is the one that stands between its outermost blanks.** -/
theorem trim_eq_iff {cs middle : List Char} : trim cs = middle ↔ IsTrimmed cs middle :=
  ⟨fun h => h ▸ isTrimmed_trim cs, IsTrimmed.trim_eq⟩

end Workbench.Text
