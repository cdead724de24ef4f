/-
Texts in quotes.

The parts of a text are read one by one up to the quote that closes it, which is the first one that
is no part of an escape.  What the parts are as characters is a matter of their sixteen bit units:
a unit that is no half of a pair is the code of a character, and a high half is taken together with
the low half behind it.  The halves and the codes of characters have nothing in common, so units
belong to one text at most (`unitsOf_append_inj`), and there is none exactly where a half stands
alone.
-/
import Workbench.Proofs.Json.Grammar
import Workbench.Proofs.Utf8.Exact

namespace Workbench.Json

variable {parts : List TextPart} {text rest : List Char} {c d : Char} {cs : List Char}
  {high low : Nat}

/-! ### Sixteen bit units -/

theorem isHigh_iff : isHigh high = true ↔ 0xD800 ≤ high ∧ high ≤ 0xDBFF := by
  simp [isHigh]

theorem isLow_iff : isLow low = true ↔ 0xDC00 ≤ low ∧ low ≤ 0xDFFF := by
  simp [isLow]

/-- A character has one unit, which is no half, or both halves of a pair. -/
theorem unitsOf_cases (c : Char) :
    (unitsOf c = [c.toNat] ∧ isHigh c.toNat = false ∧ isLow c.toNat = false) ∨
      ∃ high low : Nat, unitsOf c = [high, low] ∧ isHigh high = true ∧ isLow low = true ∧
        c.toNat = 0x10000 + (high - 0xD800) * 0x400 + (low - 0xDC00) := by
  have hvalid : c.toNat < 0xD800 ∨ 0xDFFF < c.toNat ∧ c.toNat < 0x110000 := c.valid
  unfold unitsOf
  by_cases hsmall : c.toNat < 0x10000
  · refine Or.inl ⟨if_pos hsmall, ?_, ?_⟩
    · rw [← Bool.not_eq_true, isHigh_iff]
      omega
    · rw [← Bool.not_eq_true, isLow_iff]
      omega
  · refine Or.inr ⟨_, _, if_neg hsmall, ?_, ?_, ?_⟩
    · rw [isHigh_iff]
      omega
    · rw [isLow_iff]
      omega
    · omega

theorem unitsOf_ne_nil (c : Char) : unitsOf c ≠ [] := by
  unfold unitsOf
  split <;> exact List.cons_ne_nil _ _

theorem unitsOf_single (hhigh : isHigh high = false) (hlow : isLow high = false)
    (hsize : high < 0x10000) : unitsOf (Char.ofNat high) = [high] := by
  rw [← Bool.not_eq_true, isHigh_iff] at hhigh
  rw [← Bool.not_eq_true, isLow_iff] at hlow
  have hcode : (Char.ofNat high).toNat = high := Utf8.toNat_ofNat_of_valid (by omega)
  rw [unitsOf, hcode, if_pos hsize]

theorem unitsOf_pair (hhigh : isHigh high = true) (hlow : isLow low = true) :
    unitsOf (Char.ofNat (0x10000 + (high - 0xD800) * 0x400 + (low - 0xDC00))) = [high, low] := by
  rw [isHigh_iff] at hhigh
  rw [isLow_iff] at hlow
  have hfirst : 0xD800 + (0x10000 + (high - 0xD800) * 0x400 + (low - 0xDC00) - 0x10000) / 0x400 =
      high := by omega
  have hsecond : 0xDC00 + (0x10000 + (high - 0xD800) * 0x400 + (low - 0xDC00) - 0x10000) % 0x400 =
      low := by omega
  rw [unitsOf, Utf8.toNat_ofNat_of_valid (by omega), if_neg (by omega), hfirst, hsecond]

/-- **Units belong to one character at most**, and so do those behind them. -/
theorem unitsOf_append_inj {more others : List CodeUnit}
    (h : unitsOf c ++ more = unitsOf d ++ others) : c = d ∧ more = others := by
  rcases unitsOf_cases c with ⟨hc, hcHigh, -⟩ | ⟨high, low, hc, hhigh, -, hcode⟩ <;>
    rcases unitsOf_cases d with ⟨hd, hdHigh, -⟩ | ⟨high', low', hd, hhigh', -, hcode'⟩ <;>
    rw [hc, hd] at h
  · obtain ⟨hcode, hmore⟩ := List.cons.inj h
    exact ⟨Char.toNat_inj.1 hcode, hmore⟩
  · rw [(List.cons.inj h).1, hhigh'] at hcHigh
    cases hcHigh
  · rw [← (List.cons.inj h).1, hhigh] at hdHigh
    cases hdHigh
  · obtain ⟨rfl, hbehind⟩ := List.cons.inj h
    obtain ⟨rfl, hmore⟩ := List.cons.inj hbehind
    exact ⟨Char.toNat_inj.1 (hcode.trans hcode'.symm), hmore⟩

/-- The first unit of a character is no low half, and behind a high half stands a low one. -/
theorem unitsOf_append_cases {first : Nat} {more behind : List CodeUnit}
    (h : first :: more = unitsOf c ++ behind) :
    isLow first = false ∧
      (isHigh first = true → ∃ low others, more = low :: others ∧ isLow low = true) := by
  rcases unitsOf_cases c with ⟨hc, hhigh, hlow⟩ | ⟨high, low, hc, hhigh, hlow, -⟩ <;> rw [hc] at h
  · obtain ⟨rfl, -⟩ := List.cons.inj h
    exact ⟨hlow, fun htrue => absurd (hhigh.symm.trans htrue) (by decide)⟩
  · obtain ⟨rfl, hmore⟩ := List.cons.inj h
    refine ⟨?_, fun _ => ⟨low, _, hmore, hlow⟩⟩
    rw [isHigh_iff] at hhigh
    rw [← Bool.not_eq_true, isLow_iff]
    omega

theorem flatMap_unitsOf_cases {first : Nat} {more : List CodeUnit}
    (h : first :: more = cs.flatMap unitsOf) :
    isLow first = false ∧
      (isHigh first = true → ∃ low others, more = low :: others ∧ isLow low = true) := by
  cases cs with
  | nil => cases h
  | cons c cs => exact unitsOf_append_cases (h.trans List.flatMap_cons)

/-- A character is put in front of characters, on both sides. -/
theorem flatMap_unitsOf_cons {more : List CodeUnit} {units : List CodeUnit}
    (hunits : unitsOf c = units) (h : units ++ more = cs.flatMap unitsOf) :
    ∃ others, cs = c :: others ∧ more = others.flatMap unitsOf := by
  cases cs with
  | nil =>
      rw [List.flatMap_nil, List.append_eq_nil_iff, ← hunits] at h
      exact absurd h.1 (unitsOf_ne_nil c)
  | cons d cs =>
      rw [List.flatMap_cons, ← hunits] at h
      obtain ⟨rfl, hmore⟩ := unitsOf_append_inj h
      exact ⟨cs, rfl, hmore⟩

/-- A character in front of characters has its units in front of theirs. -/
theorem map_cons_eq_some_iff {units : List CodeUnit} (hunits : unitsOf c = units)
    (h : ∀ cs, charsOf parts = some cs ↔ parts.flatMap TextPart.units = cs.flatMap unitsOf) :
    (charsOf parts).map (c :: ·) = some cs ↔
      units ++ parts.flatMap TextPart.units = cs.flatMap unitsOf := by
  rw [Option.map_eq_some_iff]
  constructor
  · rintro ⟨others, hothers, rfl⟩
    rw [List.flatMap_cons, hunits, (h others).1 hothers]
  · intro heq
    obtain ⟨others, rfl, hmore⟩ := flatMap_unitsOf_cons hunits heq
    exact ⟨others, (h others).2 hmore, rfl⟩

/-- **The characters that parts stand for have the units of the parts**, and no other characters
have. -/
theorem charsOf_eq_some_iff (hsize : ∀ unit, .unit unit ∈ parts → unit < 0x10000) :
    charsOf parts = some cs ↔ parts.flatMap TextPart.units = cs.flatMap unitsOf := by
  fun_induction charsOf parts generalizing cs with
  | case1 =>
      cases cs with
      | nil => simp
      | cons c cs => simp [unitsOf_ne_nil]
  | case2 c parts ih =>
      exact map_cons_eq_some_iff rfl fun cs => ih fun u hu => hsize u (by simp [hu])
  | case3 high low parts hhigh hlow ih =>
      exact map_cons_eq_some_iff (unitsOf_pair hhigh hlow)
        fun cs => ih fun u hu => hsize u (by simp [hu])
  | case4 high low parts hhigh hlow =>
      refine iff_of_false nofun fun h => ?_
      obtain ⟨low', others, hmore, hlow'⟩ := (flatMap_unitsOf_cases h).2 hhigh
      cases hmore
      exact absurd hlow' hlow
  | case5 high low parts hhigh hlow =>
      exact iff_of_false nofun fun h => absurd hlow (by simp [(flatMap_unitsOf_cases h).1])
  | case6 high low parts hhigh hlow ih =>
      have hsingle := unitsOf_single (by simpa using hhigh) (by simpa using hlow)
        (hsize high List.mem_cons_self)
      exact map_cons_eq_some_iff hsingle
        fun cs => ih fun u hu => hsize u (List.mem_cons_of_mem _ hu)
  | case7 unit parts hlast hhalf =>
      refine iff_of_false nofun fun h => ?_
      have hcases := flatMap_unitsOf_cases h
      simp only [hcases.1, Bool.or_false] at hhalf
      obtain ⟨low, others, hmore, hlow⟩ := hcases.2 hhalf
      -- The low half would be a part of its own or the first unit of a character.
      cases parts with
      | nil => cases hmore
      | cons part parts =>
          cases part with
          | unit low' => exact hlast low' parts rfl
          | char c =>
              have hfirst := (unitsOf_append_cases hmore.symm).1
              exact absurd (hfirst.symm.trans hlow) (by decide)
  | case8 unit parts hlast hhalf ih =>
      simp only [Bool.or_eq_true, not_or, Bool.not_eq_true] at hhalf
      exact map_cons_eq_some_iff (unitsOf_single hhalf.1 hhalf.2 (hsize unit List.mem_cons_self))
        fun cs => ih fun u hu => hsize u (List.mem_cons_of_mem _ hu)

/-! ### Reading a text -/

theorem hexDigit?_lt {n : Nat} (h : hexDigit? c = some n) : n < 16 := by
  have hcode (low : Char) : low ≤ c ↔ low.toNat ≤ c.toNat := Iff.rfl
  have hcode' (top : Char) : c ≤ top ↔ c.toNat ≤ top.toNat := Iff.rfl
  simp only [hexDigit?, hcode, hcode', Char.reduceToNat] at h
  split at h
  · cases h
    omega
  · split at h
    · cases h
      omega
    · split at h
      · cases h
        omega
      · cases h

theorem unitOf_lt {a b c d : Char} {unit : Nat} (h : unitOf a b c d = some unit) :
    unit < 0x10000 := by
  simp only [unitOf, Option.bind_eq_bind, Option.bind_eq_some_iff, Option.pure_def,
    Option.some.injEq] at h
  obtain ⟨a', ha, b', hb, c', hc, d', hd, rfl⟩ := h
  have := hexDigit?_lt ha
  have := hexDigit?_lt hb
  have := hexDigit?_lt hc
  have := hexDigit?_lt hd
  omega

theorem AreParts.unit_lt (h : AreParts parts text) {unit : CodeUnit} (hunit : .unit unit ∈ parts) :
    unit < 0x10000 := by
  induction h with
  | nil => cases hunit
  | cons hpart hmore ih =>
      rcases List.mem_cons.1 hunit with rfl | hunit
      · cases hpart with
        | unit h => exact unitOf_lt h
      · exact ih hunit

/-- A text in quotes stands for the characters of its parts. -/
theorem isText_iff {content : Option String} {quoted : List Char} :
    IsText content quoted ↔
      ∃ parts text, AreParts parts text ∧ content = (charsOf parts).map String.ofList ∧
        quoted = '"' :: (text ++ ['"']) := by
  constructor
  · rintro (⟨hparts, hunits⟩ | ⟨hparts, hunits⟩)
    · refine ⟨_, _, hparts, ?_, rfl⟩
      rw [(charsOf_eq_some_iff fun _ => hparts.unit_lt).2 hunits, Option.map_some,
        String.ofList_toList]
    · refine ⟨_, _, hparts, ?_, rfl⟩
      cases hcs : charsOf _ with
      | none => rfl
      | some cs =>
          have hof := (charsOf_eq_some_iff fun _ => hparts.unit_lt).1 hcs
          exact absurd (hof.trans (by rw [String.toList_ofList])) (hunits (String.ofList cs))
  · rintro ⟨parts, text, hparts, rfl, rfl⟩
    have hiff (cs : List Char) :
        charsOf parts = some cs ↔ parts.flatMap TextPart.units = cs.flatMap unitsOf :=
      charsOf_eq_some_iff fun _ => hparts.unit_lt
    cases hcs : charsOf parts with
    | none =>
        refine .halved hparts fun content hunits => ?_
        rw [(hiff _).2 hunits] at hcs
        cases hcs
    | some cs => exact .chars hparts (((hiff cs).1 hcs).trans (by rw [String.toList_ofList]))

/-- The parts of a text are read up to the quote that closes it. -/
theorem AreParts.readParts_eq (h : AreParts parts text) (rest : List Char) :
    readParts (text ++ '"' :: rest) = some (parts, rest) := by
  induction h with
  | nil => rw [List.nil_append, readParts]
  | cons hpart hmore ih =>
      cases hpart with
      | char hquote hbackslash hcontrol =>
          rw [List.append_assoc, List.singleton_append, readParts,
            if_neg (Nat.not_lt.2 hcontrol), ih]
          · rfl
          · exact hquote
          · exact fun _ _ _ _ _ heq => absurd heq hbackslash
          · exact fun _ _ heq => absurd heq hbackslash
      | short hletter =>
          rw [List.append_assoc, List.cons_append, List.singleton_append, readParts, hletter, ih]
          · rfl
          · rintro _ _ _ _ _ rfl
            cases hletter
      | unit hunit =>
          rw [List.append_assoc]
          simp only [List.cons_append, List.nil_append]
          rw [readParts, hunit, ih]
          rfl

theorem readParts_eq_some_iff :
    readParts text = some (parts, rest) ↔
      ∃ body, text = body ++ '"' :: rest ∧ AreParts parts body := by
  constructor
  · intro h
    fun_induction readParts text generalizing parts with
    | case1 rest' =>
        cases h
        exact ⟨[], rfl, .nil⟩
    | case2 a b c d rest' ih =>
        obtain ⟨unit, hunit, hmore⟩ := Option.bind_eq_some_iff.1 h
        obtain ⟨⟨parts', behind⟩, hparts, hpure⟩ := Option.bind_eq_some_iff.1 hmore
        cases hpure
        obtain ⟨body, rfl, hbody⟩ := ih hparts
        exact ⟨_, rfl, .cons (.unit hunit) hbody⟩
    | case3 letter rest' hne ih =>
        obtain ⟨c, hc, hmore⟩ := Option.bind_eq_some_iff.1 h
        obtain ⟨⟨parts', behind⟩, hparts, hpure⟩ := Option.bind_eq_some_iff.1 hmore
        cases hpure
        obtain ⟨body, rfl, hbody⟩ := ih hparts
        exact ⟨_, rfl, .cons (.short hc) hbody⟩
    | case4 c rest' hquote hunit hshort hcontrol => cases h
    | case5 c rest' hquote hunit hshort hcontrol ih =>
        obtain ⟨⟨parts', behind⟩, hparts, hpure⟩ := Option.bind_eq_some_iff.1 h
        cases hpure
        obtain ⟨body, rfl, hbody⟩ := ih hparts
        refine ⟨_, rfl, .cons (.char hquote ?_ (Nat.not_lt.1 hcontrol)) hbody⟩
        -- A backslash would have been read with the character behind it, and there is one.
        rintro rfl
        cases hbehind : body ++ '"' :: rest with
        | nil => exact absurd hbehind (by simp)
        | cons d more => exact hshort d more rfl hbehind
    | case6 => cases h
  · rintro ⟨body, rfl, h⟩
    exact h.readParts_eq rest

/-- **A text is read exactly where one is written**, up to its closing quote. -/
theorem readText_eq_some_iff {content : Option String} :
    readText text = some (content, rest) ↔
      ∃ quoted, IsText content quoted ∧ '"' :: text = quoted ++ rest := by
  simp only [readText, Option.bind_eq_bind, Option.bind_eq_some_iff, Prod.exists,
    readParts_eq_some_iff, isText_iff]
  constructor
  · rintro ⟨parts, behind, ⟨body, rfl, hparts⟩, hpure⟩
    cases hpure
    exact ⟨_, ⟨parts, body, hparts, rfl, rfl⟩, by simp⟩
  · rintro ⟨quoted, ⟨parts, body, hparts, rfl, rfl⟩, heq⟩
    refine ⟨parts, rest, ⟨body, ?_, hparts⟩, rfl⟩
    simpa using heq

/-- A text in quotes begins with one, and the text behind that is read. -/
theorem IsText.eq_cons {content : Option String} {quoted : List Char} (h : IsText content quoted)
    (rest : List Char) :
    ∃ inside, quoted ++ rest = '"' :: inside ∧ readText inside = some (content, rest) := by
  obtain ⟨parts, body, hparts, hcontent, rfl⟩ := isText_iff.1 h
  refine ⟨body ++ '"' :: rest, by simp, ?_⟩
  exact readText_eq_some_iff.2 ⟨_, h, by simp⟩

end Workbench.Json
