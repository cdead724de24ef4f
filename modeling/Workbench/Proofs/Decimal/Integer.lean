/-
Whole numbers and the digits that spell them.

Reading goes through the digits once and takes each of them as the last digit of a number ten times
as large; that is what digits spell.  Reading is not bounded, so leading zeros are harmless, and only
the number as a whole has to be in range.  Every number that fits sixty-four bits is spelled by the
digits it is printed with.
-/
import Workbench.Decimal.Integer

namespace Workbench

variable {text digits : List Char} {m n : Nat} {i : Int}

/-- One or more digits that spell a number. -/
structure SpellsNatural (digits : List Char) (n : Nat) : Prop where
  ne_nil : digits ≠ []
  isDigit : ∀ c ∈ digits, c.isDigit = true
  value : Nat.ofDigitChars 10 digits 0 = n

/-- Digits that spell a number, with a sign in front of them or without. -/
inductive Spells : List Char → Int → Prop
  | plain {digits : List Char} {n : Nat} (h : SpellsNatural digits n) : Spells digits n
  | plus {digits : List Char} {n : Nat} (h : SpellsNatural digits n) : Spells ('+' :: digits) n
  | minus {digits : List Char} {n : Nat} (h : SpellsNatural digits n) : Spells ('-' :: digits) (-n)

/-! ### Reading -/

theorem digitsAfter_eq_some_iff :
    digitsAfter m digits = some n ↔
      (∀ c ∈ digits, c.isDigit = true) ∧ Nat.ofDigitChars 10 digits m = n := by
  induction digits generalizing m with
  | nil => simp [digitsAfter]
  | cons c digits ih =>
      rw [digitsAfter, List.forall_mem_cons, Nat.ofDigitChars_cons]
      by_cases hc : c.isDigit = true
      · rw [if_pos hc, ih, Nat.mul_comm m 10]
        simp [hc]
      · simp [hc]

theorem readNatural_eq_some_iff : readNatural text = some n ↔ SpellsNatural text n := by
  cases text with
  | nil => exact iff_of_false (fun h => nomatch h) fun h => h.ne_nil rfl
  | cons c digits =>
      rw [readNatural, digitsAfter_eq_some_iff]
      · exact ⟨fun h => ⟨List.cons_ne_nil _ _, h.1, h.2⟩, fun h => ⟨h.isDigit, h.value⟩⟩
      · exact fun h => nomatch h

theorem SpellsNatural.head_isDigit {c : Char} (h : SpellsNatural (c :: digits) n) :
    c.isDigit = true :=
  h.isDigit c List.mem_cons_self

theorem cast_readNatural_eq_some_iff :
    (do let n ← readNatural text; pure (n : Int)) = some i ↔
      ∃ n, SpellsNatural text n ∧ (n : Int) = i := by
  simp only [Option.bind_eq_bind, Option.bind_eq_some_iff, readNatural_eq_some_iff, Option.pure_def,
    Option.some.injEq]

/-- **A number is read exactly where digits spell it.** -/
theorem readInteger_eq_some_iff : readInteger text = some i ↔ Spells text i := by
  unfold readInteger
  split
  · rename_i digits
    simp only [Option.map_eq_some_iff, cast_readNatural_eq_some_iff]
    constructor
    · rintro ⟨_, ⟨n, hdigits, rfl⟩, rfl⟩
      exact .minus hdigits
    · rintro (hplain | hplus | hminus)
      · exact absurd hplain.head_isDigit (by decide)
      · exact ⟨_, ⟨_, hminus, rfl⟩, rfl⟩
  · rename_i digits
    simp only [Option.map_eq_some_iff, cast_readNatural_eq_some_iff]
    constructor
    · rintro ⟨_, ⟨n, hdigits, rfl⟩, rfl⟩
      exact .plus hdigits
    · rintro (hplain | hplus | hminus)
      · exact absurd hplain.head_isDigit (by decide)
      · exact ⟨_, ⟨_, hplus, rfl⟩, rfl⟩
  · rename_i hminus hplus
    simp only [Option.map_eq_some_iff, cast_readNatural_eq_some_iff]
    constructor
    · rintro ⟨_, ⟨n, hdigits, rfl⟩, rfl⟩
      exact .plain hdigits
    · rintro (hplain | hsigned | hsigned)
      · exact ⟨_, ⟨_, hplain, rfl⟩, rfl⟩
      · exact absurd rfl (hplus _)
      · exact absurd rfl (hminus _)

/-! ### Sixty-four bits -/

theorem toInt64?_eq_some_iff {value : Int64} : toInt64? i = some value ↔ value.toInt = i := by
  have hmin := value.minValue_le_toInt
  have hmax := value.toInt_le
  unfold toInt64?
  by_cases hrange : Int64.minValue.toInt ≤ i ∧ i ≤ Int64.maxValue.toInt
  · rw [if_pos hrange, Option.some.injEq]
    constructor
    · rintro rfl
      exact Int64.toInt_ofInt_of_le hrange.1 (Int.lt_add_one_of_le hrange.2)
    · rintro rfl
      exact value.ofInt_toInt
  · rw [if_neg hrange]
    refine iff_of_false (fun h => nomatch h) ?_
    rintro rfl
    exact hrange ⟨hmin, hmax⟩

theorem readInt64_eq_some_iff {value : Int64} :
    readInt64 text = some value ↔ Spells text value.toInt := by
  rw [readInt64, Option.bind_eq_some_iff]
  simp only [readInteger_eq_some_iff, toInt64?_eq_some_iff]
  constructor
  · rintro ⟨i, htext, rfl⟩
    exact htext
  · exact fun htext => ⟨_, htext, rfl⟩

theorem isSome_readInt64_iff :
    (readInt64 text).isSome = true ↔
      ∃ i, Spells text i ∧ -9223372036854775808 ≤ i ∧ i ≤ 9223372036854775807 := by
  rw [Option.isSome_iff_exists]
  simp only [readInt64_eq_some_iff]
  constructor
  · rintro ⟨value, htext⟩
    exact ⟨_, htext, value.minValue_le_toInt, value.toInt_le⟩
  · rintro ⟨i, htext, hmin, hmax⟩
    refine ⟨Int64.ofInt i, ?_⟩
    rwa [Int64.toInt_ofInt_of_le hmin (Int.lt_add_one_of_le hmax)]

/-! ### Printed numbers -/

theorem spellsNatural_repr (n : Nat) : SpellsNatural n.repr.toList n where
  ne_nil := by
    rw [Nat.toList_repr]
    exact Nat.toDigits_ne_nil
  isDigit := by
    intro c hc
    rw [Nat.toList_repr] at hc
    exact Nat.isDigit_of_mem_toDigits (by decide) (by decide) hc
  value := by
    rw [Nat.toList_repr]
    exact Nat.ofDigitChars_ten_toDigits

/-- **A number is spelled by the text that it is printed as.** -/
theorem spells_toString (i : Int) : Spells (toString i).toList i := by
  cases i with
  | ofNat n => exact .plain (spellsNatural_repr n)
  | negSucc n =>
      have htext : (toString (Int.negSucc n)).toList = '-' :: (n + 1).repr.toList := by
        show ("-" ++ (n + 1).repr).toList = _
        rw [String.toList_append]
        rfl
      rw [htext]
      exact .minus (spellsNatural_repr (n + 1))

end Workbench
