/-
Writing character data and reading it back.

Every character is written as itself or as a predefined name between an ampersand and a
semicolon, and an ampersand is never written as itself.  `Spells` says this of one character, and
nothing else about the way it is written matters to the reader: whatever `f` is, if `f c` always
spells `c`, the text behind the references of `cs.flatMap f` is `cs`.  Character data and values
between quotes are the two instances.

What the writer keeps free of brackets and quotes is collected here too, because the layers above
cut the text at them.
-/
import Workbench.Xml.Reference

namespace Workbench.Xml

/-! ### One character -/

/-- A text that stands for a character. -/
inductive Spells (c : Char) : List Char → Prop
  /-- The character itself. -/
  | itself (h : c ≠ '&') : Spells c [c]
  /-- A predefined name. -/
  | named {name : List Char} (h : namedChar? name = some c) : Spells c ('&' :: name ++ [';'])

/-- The five predefined names. -/
theorem name_of_namedChar {name : List Char} {c : Char} (h : namedChar? name = some c) :
    name = ['l', 't'] ∨ name = ['g', 't'] ∨ name = ['a', 'm', 'p'] ∨
      name = ['a', 'p', 'o', 's'] ∨ name = ['q', 'u', 'o', 't'] := by
  unfold namedChar? at h
  repeat' split at h
  all_goals simp_all

/-- A predefined name runs up to its semicolon. -/
theorem inReference_of_namedChar {name : List Char} {c : Char} (h : namedChar? name = some c) :
    ∀ d ∈ name, inReference d = true := by
  rcases name_of_namedChar h with rfl | rfl | rfl | rfl | rfl <;> simp [inReference]

/-- A predefined name stands for its character wherever it is referred to. -/
theorem referencedChar_of_namedChar {name : List Char} {c : Char} (start : Nat)
    (h : namedChar? name = some c) : referencedChar start name = .ok c := by
  have hmark : ∀ number, name ≠ '#' :: number := by
    rcases name_of_namedChar h with rfl | rfl | rfl | rfl | rfl <;> simp
  unfold referencedChar
  split
  · exact absurd rfl (hmark _)
  · rw [h]

/-- A reference is read up to its semicolon, and then what follows. -/
theorem unescapeFrom_reference {name : List Char} (h : ∀ d ∈ name, inReference d = true)
    (total position : Nat) (rest : List Char) :
    unescapeFrom total position ('&' :: (name ++ ';' :: rest)) =
      (do
        let d ← referencedChar (position + 1) name
        let text ← unescapeFrom total (position + 1 + Utf8.byteSize name + 1) rest
        pure (d :: text)) := by
  have htake : (name ++ ';' :: rest).takeWhile inReference = name := by
    rw [List.takeWhile_append_of_pos h]
    simp [inReference]
  have hdrop : (name ++ ';' :: rest).dropWhile inReference = ';' :: rest := by
    rw [List.dropWhile_append_of_pos h]
    simp [inReference]
  rw [unescapeFrom, if_pos rfl]
  simp only [htake]
  split
  · rename_i more hmore
    rw [hdrop] at hmore
    cases hmore
    rfl
  · rename_i hmore
    exact absurd hdrop (hmore rest)

/-- What spells a character is read as that character, whatever follows. -/
theorem unescapeFrom_spells {c : Char} {written : List Char} (h : Spells c written)
    (total position : Nat) (rest : List Char) :
    unescapeFrom total position (written ++ rest) =
      (unescapeFrom total (position + Utf8.byteSize written) rest).map (c :: ·) := by
  cases h with
  | itself hc =>
      show unescapeFrom total position (c :: rest) = _
      rw [unescapeFrom, if_neg hc]
      simp only [Utf8.byteSize, Nat.add_zero]
      cases unescapeFrom total (position + c.utf8Size) rest <;> rfl
  | @named name hname =>
      have hsize : position + Utf8.byteSize ('&' :: name ++ [';'])
          = position + 1 + Utf8.byteSize name + 1 := by
        have hopen : ('&' : Char).utf8Size = 1 := rfl
        have hclose : (';' : Char).utf8Size = 1 := rfl
        simp only [List.cons_append, Utf8.byteSize, Utf8.byteSize_append, hopen, hclose]
        omega
      rw [hsize]
      simp only [List.cons_append, List.append_assoc, List.nil_append]
      rw [unescapeFrom_reference (inReference_of_namedChar hname),
        referencedChar_of_namedChar _ hname]
      show (unescapeFrom total _ rest >>= fun text => pure (c :: text)) = _
      cases unescapeFrom total (position + 1 + Utf8.byteSize name + 1) rest <;> rfl

/-! ### Whole texts -/

theorem unescapeFrom_flatMap {f : Char → List Char} (hf : ∀ c, Spells c (f c)) (total : Nat)
    (cs : List Char) : ∀ position, unescapeFrom total position (cs.flatMap f) = .ok cs := by
  induction cs with
  | nil =>
      intro position
      rw [List.flatMap_nil, unescapeFrom]
  | cons c cs ih =>
      intro position
      rw [List.flatMap_cons, unescapeFrom_spells (hf c), ih]
      rfl

/-- A text whose characters are spelled one by one is read back. -/
theorem unescape_flatMap {f : Char → List Char} (hf : ∀ c, Spells c (f c)) (cs : List Char) :
    unescape (cs.flatMap f) = .ok cs :=
  unescapeFrom_flatMap hf _ cs 0

theorem spells_escapeChar (c : Char) : Spells c (escapeChar c) := by
  unfold escapeChar
  by_cases hamp : c = '&'
  · subst hamp
    exact @Spells.named '&' ['a', 'm', 'p'] (by decide)
  · rw [if_neg hamp]
    by_cases hlt : c = '<'
    · subst hlt
      exact @Spells.named '<' ['l', 't'] (by decide)
    · rw [if_neg hlt]
      by_cases hgt : c = '>'
      · subst hgt
        exact @Spells.named '>' ['g', 't'] (by decide)
      · rw [if_neg hgt]
        exact Spells.itself hamp

theorem spells_escapeValueChar (c : Char) : Spells c (escapeValueChar c) := by
  unfold escapeValueChar
  by_cases hquote : c = '"'
  · subst hquote
    exact @Spells.named '"' ['q', 'u', 'o', 't'] (by decide)
  · rw [if_neg hquote]
    exact spells_escapeChar c

/-- **Character data is read back as it was before writing.** -/
theorem unescape_escape (cs : List Char) : unescape (escape cs) = .ok cs :=
  unescape_flatMap spells_escapeChar cs

/-- **A value is read back as it was before writing.** -/
theorem unescape_escapeValue (cs : List Char) : unescape (escapeValue cs) = .ok cs :=
  unescape_flatMap spells_escapeValueChar cs

/-! ### What is never written -/

theorem ne_of_mem_escapeChar {c d : Char} (h : d ∈ escapeChar c) :
    d ≠ '<' ∧ d ≠ '>' ∧ (c ≠ '"' → d ≠ '"') := by
  unfold escapeChar at h
  repeat' split at h
  all_goals simp only [List.mem_cons, List.not_mem_nil, or_false] at h
  · rcases h with rfl | rfl | rfl | rfl | rfl <;> simp
  · rcases h with rfl | rfl | rfl | rfl <;> simp
  · rcases h with rfl | rfl | rfl | rfl <;> simp
  · subst h
    exact ⟨‹_›, ‹_›, id⟩

theorem ne_of_mem_escapeValueChar {c d : Char} (h : d ∈ escapeValueChar c) :
    d ≠ '<' ∧ d ≠ '>' ∧ d ≠ '"' := by
  unfold escapeValueChar at h
  split at h
  · simp only [List.mem_cons, List.not_mem_nil, or_false] at h
    rcases h with rfl | rfl | rfl | rfl | rfl | rfl <;> decide
  · rename_i hc
    obtain ⟨hlt, hgt, hquote⟩ := ne_of_mem_escapeChar h
    exact ⟨hlt, hgt, hquote hc⟩

/-- Written character data holds no opening bracket. -/
theorem ne_open_of_mem_escape {cs : List Char} {d : Char} (h : d ∈ escape cs) : d ≠ '<' := by
  obtain ⟨c, -, hd⟩ := List.mem_flatMap.1 h
  exact (ne_of_mem_escapeChar hd).1

/-- A written value holds neither brackets nor the quote it stands between. -/
theorem ne_of_mem_escapeValue {cs : List Char} {d : Char} (h : d ∈ escapeValue cs) :
    d ≠ '<' ∧ d ≠ '>' ∧ d ≠ '"' := by
  obtain ⟨c, -, hd⟩ := List.mem_flatMap.1 h
  exact ne_of_mem_escapeValueChar hd

/-- Only the empty text is written as nothing. -/
theorem escape_eq_nil {cs : List Char} : escape cs = [] ↔ cs = [] := by
  have hne : ∀ c, escapeChar c ≠ [] := by
    intro c
    unfold escapeChar
    repeat' split
    all_goals simp
  cases cs with
  | nil => simp [escape]
  | cons c cs => simp [escape, hne]

theorem escape_append (cs ds : List Char) : escape (cs ++ ds) = escape cs ++ escape ds :=
  List.flatMap_append

end Workbench.Xml
