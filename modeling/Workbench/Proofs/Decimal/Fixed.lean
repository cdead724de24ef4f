/-
Decimal places are exact.

A text with decimal places spells as many units of the last place as there are digits in it, point
left out, because the places behind the point are filled up to their full number.  So what is
written is the rounded number of units and nothing is lost after the rounding: how far the text is
from the number, where it goes when the number grows, and when it is the number itself, are what
rounding to the nearest whole number says of them.  The sign is that of the bits.
-/
import Workbench.Proofs.Decimal.Integer
import Workbench.Proofs.Decimal.Rounding

namespace Workbench

variable {places n : ℕ} {whole fraction text : List Char}

/-! ### Texts with decimal places -/

/-- Digits for the places before the point, without a zero that could be left out, and `places`
digits for those behind it. -/
structure ArePlaces (places : ℕ) (whole fraction : List Char) : Prop where
  whole_ne_nil : whole ≠ []
  whole_isDigit : ∀ c ∈ whole, c.isDigit = true
  unpadded : whole.head? = some '0' → whole = ['0']
  fraction_isDigit : ∀ c ∈ fraction, c.isDigit = true
  fraction_length : fraction.length = places

/-- The number that digits with a point among them spell, or with none. -/
def unsignedDecimal (text : List Char) : ℚ :=
  let whole := text.takeWhile (· != '.')
  let fraction := (text.dropWhile (· != '.')).tail
  Nat.ofDigitChars 10 whole 0 + Nat.ofDigitChars 10 fraction 0 / 10 ^ fraction.length

/-- The number that a text spells which may begin with a minus sign. -/
def decimal : List Char → ℚ
  | '-' :: text => -unsignedDecimal text
  | text => unsignedDecimal text

/-! ### Digits -/

theorem isDigit_of_mem_digits {c : Char} (h : c ∈ digits n) : c.isDigit = true :=
  Nat.isDigit_of_mem_toDigits (by decide) (by decide) h

theorem ofDigitChars_digits (n : ℕ) : Nat.ofDigitChars 10 (digits n) 0 = n :=
  Nat.ofDigitChars_ten_toDigits

/-- Only zero begins with the digit zero: the first digit of a greater number is the first digit of
a tenth of it. -/
theorem eq_zero_of_head?_digits (h : (digits n).head? = some '0') : n = 0 := by
  induction n using Nat.strongRecOn with
  | _ n ih =>
      rcases Nat.lt_or_ge n 10 with hsmall | hlarge
      · rw [digits, Nat.toDigits_of_lt_base hsmall, List.head?_singleton, Option.some.injEq] at h
        exact Nat.digitChar_eq_zero.1 h
      · rw [digits, Nat.toDigits_of_base_le (by decide) hlarge,
          List.head?_append_of_ne_nil _ Nat.toDigits_ne_nil] at h
        have htenth : n / 10 = 0 := ih (n / 10) (Nat.div_lt_self (by omega) (by decide)) h
        omega

theorem isDigit_of_mem_paddedDigits {c : Char} (h : c ∈ paddedDigits places n) :
    c.isDigit = true := by
  unfold paddedDigits at h
  rcases List.mem_append.1 h with hpadding | hshown
  · rw [List.eq_of_mem_replicate hpadding]
    decide
  · exact isDigit_of_mem_digits hshown

theorem length_paddedDigits (hplaces : 0 < places) (hn : n < 10 ^ places) :
    (paddedDigits places n).length = places := by
  have hshown : (digits n).length ≤ places :=
    (Nat.length_toDigits_le_iff (by decide) hplaces).2 hn
  unfold paddedDigits
  rw [List.length_append, List.length_replicate, Nat.sub_add_cancel hshown]

theorem ofDigitChars_paddedDigits (places n : ℕ) :
    Nat.ofDigitChars 10 (paddedDigits places n) 0 = n := by
  unfold paddedDigits
  rw [Nat.ofDigitChars_append, Nat.ofDigitChars_replicate_zero, Nat.mul_zero, ofDigitChars_digits]

/-! ### Units of the last place -/

theorem arePlaces_digits (n : ℕ) (hfraction : ∀ c ∈ fraction, c.isDigit = true)
    (hlength : fraction.length = places) : ArePlaces places (digits n) fraction where
  whole_ne_nil := Nat.toDigits_ne_nil
  whole_isDigit := fun _ => isDigit_of_mem_digits
  unpadded := by
    intro h
    rw [eq_zero_of_head?_digits h]
    rfl
  fraction_isDigit := hfraction
  fraction_length := hlength

/-- **The digits before and behind the point together count the units that are written.** -/
theorem exists_arePlaces_fixedPoint (places n : ℕ) :
    ∃ whole fraction, fixedPoint places n = whole ++ (if places = 0 then [] else '.' :: fraction) ∧
      ArePlaces places whole fraction ∧
      Nat.ofDigitChars 10 whole 0 * 10 ^ places + Nat.ofDigitChars 10 fraction 0 = n := by
  unfold fixedPoint
  by_cases hplaces : places = 0
  · refine ⟨digits n, [], ?_, arePlaces_digits n (fun _ h => nomatch h) hplaces.symm, ?_⟩
    · rw [if_pos hplaces, if_pos hplaces, List.append_nil]
    · rw [ofDigitChars_digits, hplaces, pow_zero, mul_one, Nat.ofDigitChars_nil, Nat.add_zero]
  · have hrest : n % 10 ^ places < 10 ^ places := Nat.mod_lt n (Nat.pow_pos (by decide))
    refine ⟨digits (n / 10 ^ places), paddedDigits places (n % 10 ^ places), ?_,
      arePlaces_digits _ (fun _ => isDigit_of_mem_paddedDigits)
        (length_paddedDigits (Nat.pos_of_ne_zero hplaces) hrest), ?_⟩
    · rw [if_neg hplaces, if_neg hplaces]
      rfl
    · rw [ofDigitChars_digits, ofDigitChars_paddedDigits, Nat.div_add_mod']

theorem ArePlaces.ne_point (h : ArePlaces places whole fraction) :
    ∀ c ∈ whole, (c != '.') = true := by
  intro c hc
  rw [bne_iff_ne]
  rintro rfl
  exact absurd (h.whole_isDigit '.' hc) (by decide)

theorem ArePlaces.unsignedDecimal_eq (h : ArePlaces places whole fraction) :
    unsignedDecimal (whole ++ if places = 0 then [] else '.' :: fraction)
      = Nat.ofDigitChars 10 whole 0 + Nat.ofDigitChars 10 fraction 0 / 10 ^ places := by
  have hends : (whole ++ if places = 0 then [] else '.' :: fraction).takeWhile (· != '.') = whole ∧
      ((whole ++ if places = 0 then [] else '.' :: fraction).dropWhile (· != '.')).tail = fraction := by
    rw [List.takeWhile_append_of_pos h.ne_point, List.dropWhile_append_of_pos h.ne_point]
    by_cases hplaces : places = 0
    · have hfraction : fraction = [] :=
        List.eq_nil_of_length_eq_zero (h.fraction_length.trans hplaces)
      rw [if_pos hplaces, hfraction]
      exact ⟨List.append_nil whole, rfl⟩
    · rw [if_neg hplaces]
      exact ⟨List.append_nil whole, rfl⟩
  simp only [unsignedDecimal, hends, h.fraction_length]

theorem unsignedDecimal_fixedPoint (places n : ℕ) :
    unsignedDecimal (fixedPoint places n) = n / 10 ^ places := by
  obtain ⟨whole, fraction, htext, hplaces, hunits⟩ := exists_arePlaces_fixedPoint places n
  rw [htext, hplaces.unsignedDecimal_eq, ← hunits]
  push_cast
  rw [add_div, mul_div_cancel_right₀ _ (by positivity)]

theorem decimal_fixedPoint (places n : ℕ) : decimal (fixedPoint places n) = n / 10 ^ places := by
  obtain ⟨whole, fraction, htext, hplaces, -⟩ := exists_arePlaces_fixedPoint places n
  rw [← unsignedDecimal_fixedPoint, htext]
  cases whole with
  | nil => exact absurd rfl hplaces.whole_ne_nil
  | cons c whole =>
      rw [List.cons_append, decimal]
      rintro rest hrest
      obtain ⟨rfl, -⟩ := List.cons.inj hrest
      exact absurd (hplaces.whole_isDigit '-' List.mem_cons_self) (by decide)

/-! ### Formatting -/

variable {x y : Binary64}

theorem toList_formatNumber (hfinite : x.IsFinite) (places : ℕ) :
    (formatNumber (some x) places).toList =
      (if x.negative then ['-'] else []) ++ fixedPoint places (x.scaled places) := by
  have hnumber : x.isNaN = false := by
    rw [Binary64.isNaN, beq_eq_false_iff_ne.2 hfinite, Bool.false_and]
  have hbounded : x.isInfinite = false := by
    rw [Binary64.isInfinite, beq_eq_false_iff_ne.2 hfinite, Bool.false_and]
  rw [formatNumber, Binary64.toFixed, hnumber, hbounded, if_neg Bool.false_ne_true,
    if_neg Bool.false_ne_true, String.toList_ofList]

/-- **The text of a number spells the units that rounding has found.** -/
theorem decimal_formatNumber (hfinite : x.IsFinite) (places : ℕ) :
    decimal (formatNumber (some x) places).toList = x.units places / 10 ^ places := by
  rw [toList_formatNumber hfinite, Binary64.units]
  by_cases hnegative : x.negative = true
  · rw [if_pos hnegative, if_pos hnegative]
    show -unsignedDecimal (fixedPoint places (x.scaled places)) = _
    rw [unsignedDecimal_fixedPoint, Int.cast_neg, Int.cast_natCast, neg_div]
  · rw [if_neg hnegative, if_neg hnegative, List.nil_append, decimal_fixedPoint, Int.cast_natCast]

theorem decimal_formatNumber_mono (hx : x.IsFinite) (hy : y.IsFinite) (h : x.value ≤ y.value)
    (places : ℕ) :
    decimal (formatNumber (some x) places).toList ≤ decimal (formatNumber (some y) places).toList := by
  have hunit : (0 : ℚ) < 10 ^ places := by positivity
  have hunits : x.units places ≤ y.units places :=
    (x.isNearest_units places).mono (y.isNearest_units places)
      (mul_le_mul_of_nonneg_right h hunit.le)
  rw [decimal_formatNumber hx, decimal_formatNumber hy, div_le_div_iff_of_pos_right hunit]
  exact_mod_cast hunits

theorem decimal_formatNumber_of_multiple (hx : x.IsFinite) {k : ℤ} (h : x.value = k / 10 ^ places) :
    decimal (formatNumber (some x) places).toList = x.value := by
  have hunit : (10 : ℚ) ^ places ≠ 0 := by positivity
  have hnearest : IsNearest (x.value * 10 ^ places) k := by
    rw [h, div_mul_cancel₀ _ hunit]
    exact .self k
  rw [decimal_formatNumber hx, (x.isNearest_units places).unique hnearest, h]

/-- **Numbers are rounded correctly.**  The text of a finite number has a minus sign if the sign bit
is set, whole places without superfluous zeros, and exactly as many decimal places as asked for.  Its
absolute value is the nearest multiple of the last place, the even one of two that are equally near;
it grows with the number, and a number that is a multiple of the last place is written exactly. -/
theorem formatNumber_rounds (x : Binary64) (places : ℕ) (hfinite : x.IsFinite) :
    (∃ whole fraction, ArePlaces places whole fraction ∧
      (formatNumber (some x) places).toList =
        (if x.negative then ['-'] else []) ++
          (whole ++ (if places = 0 then [] else '.' :: fraction))) ∧
    (∃ n : ℕ, |decimal (formatNumber (some x) places).toList| = n / 10 ^ places ∧
      ∀ m : ℤ, m ≠ n →
        |(|x.value| - n / 10 ^ places)| < |(|x.value| - m / 10 ^ places)| ∨
        |(|x.value| - n / 10 ^ places)| = |(|x.value| - m / 10 ^ places)| ∧ Even n) ∧
    (∀ y : Binary64, y.IsFinite → x.value ≤ y.value →
      decimal (formatNumber (some x) places).toList ≤
        decimal (formatNumber (some y) places).toList) ∧
    (∀ k : ℤ, x.value = k / 10 ^ places →
      decimal (formatNumber (some x) places).toList = x.value) := by
  refine ⟨?_, ⟨x.scaled places, ?_, ?_⟩, ?_, ?_⟩
  · obtain ⟨whole, fraction, htext, hplaces, -⟩ := exists_arePlaces_fixedPoint places (x.scaled places)
    exact ⟨whole, fraction, hplaces, by rw [toList_formatNumber hfinite, htext]⟩
  · have hunits : |((x.units places : ℤ) : ℚ)| = x.scaled places := by
      unfold Binary64.units
      split
      · rw [Int.cast_neg, abs_neg, Int.cast_natCast, Nat.abs_cast]
      · rw [Int.cast_natCast, Nat.abs_cast]
    rw [decimal_formatNumber hfinite, abs_div, hunits, abs_of_pos (by positivity)]
  · intro m hm
    have hunit : (0 : ℚ) < 10 ^ places := by positivity
    have hnearer := (x.isNearest_scaled places).nearer_multiple hunit hm
    rw [Int.cast_natCast, Int.even_coe_nat] at hnearer
    rw [Binary64.abs_value]
    exact hnearer
  · exact fun y hy h => decimal_formatNumber_mono hfinite hy h places
  · exact fun k h => decimal_formatNumber_of_multiple hfinite h

/-- Minus one and a half has four decimal places without an error. -/
theorem formatNumber_rounds_exact :
    Binary64.IsFinite ⟨0xBFF8000000000000⟩ ∧
      decimal (formatNumber (some ⟨0xBFF8000000000000⟩) 4).toList = -3 / 2 := by
  have hfinite : Binary64.IsFinite ⟨0xBFF8000000000000⟩ := by decide
  have hvalue : Binary64.value ⟨0xBFF8000000000000⟩ = -3 / 2 := by
    have hnegative : Binary64.negative ⟨0xBFF8000000000000⟩ = true := by decide
    have hexponent : Binary64.exponentField ⟨0xBFF8000000000000⟩ = 1023 := by decide
    have hfraction : Binary64.fractionField ⟨0xBFF8000000000000⟩ = 2 ^ 51 := by decide
    rw [Binary64.value, if_pos hnegative, Binary64.size, hexponent, hfraction]
    norm_num
  obtain ⟨-, -, -, hexact⟩ := formatNumber_rounds ⟨0xBFF8000000000000⟩ 4 hfinite
  refine ⟨hfinite, ?_⟩
  rw [hexact (-15000) (by rw [hvalue]; norm_num), hvalue]

/-- An eighth is halfway between twelve and thirteen hundredths, and minus zero keeps its sign. -/
example : formatNumber (some ⟨0xBFC0000000000000⟩) 2 = "-0.12" ∧
    formatNumber (some ⟨0x8000000000000000⟩) 1 = "-0.0" := by
  decide +kernel

end Workbench
