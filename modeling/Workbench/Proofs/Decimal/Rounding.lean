/-
Rounding to the nearest whole number, and the numbers that the bits stand for.

A whole number is nearest to a fraction if it is at most a half away, and even where it is a half
away.  Everything else follows from these two bounds without another look at how the number was
found: no other whole number is nearer, and one that is as near is odd; what is nearest grows with
the fraction, because two neighbours cannot both be even; a fraction that is whole is nearest to
itself.  All this is the same on both sides of zero, so the sign is put in front of what has been
found for the absolute value.
-/
import Mathlib
import Workbench.Decimal.Fixed

namespace Workbench

variable {q r : ℚ} {k m : ℤ}

/-! ### Nearest whole numbers -/

/-- A whole number is at most a half away from a fraction, and even if it is a half away. -/
structure IsNearest (q : ℚ) (k : ℤ) : Prop where
  close : |q - k| ≤ 1 / 2
  even : |q - k| = 1 / 2 → Even k

namespace IsNearest

theorem neg (h : IsNearest q k) : IsNearest (-q) (-k) := by
  have habs : |-q - ((-k : ℤ) : ℚ)| = |q - k| := by
    rw [Int.cast_neg, neg_sub_neg, abs_sub_comm]
  constructor
  · rw [habs]
    exact h.close
  · rw [habs, even_neg]
    exact h.even

/-- **Every other whole number is farther away, or as far and then the nearest one is even.** -/
theorem nearer (h : IsNearest q k) (hm : m ≠ k) :
    |q - k| < |q - m| ∨ |q - k| = |q - m| ∧ Even k := by
  have hclose := h.close
  have hapart : (1 : ℚ) ≤ |(m : ℚ) - k| := by
    exact_mod_cast Int.one_le_abs (sub_ne_zero.2 hm)
  have htriangle : |(m : ℚ) - k| ≤ |q - k| + |q - m| := by
    have hsum := abs_sub_le (m : ℚ) q k
    rw [abs_sub_comm (m : ℚ) q] at hsum
    linarith
  rcases lt_or_eq_of_le (show |q - k| ≤ |q - m| by linarith) with hlt | heq
  · exact .inl hlt
  · exact .inr ⟨heq, h.even (by linarith)⟩

/-- **What is nearest grows with the fraction.** -/
theorem mono (hq : IsNearest q k) (hr : IsNearest r m) (h : q ≤ r) : k ≤ m := by
  by_contra hlt
  have hstep : (m : ℚ) + 1 ≤ k := by exact_mod_cast Int.add_one_le_of_lt (not_le.1 hlt)
  have hbelow := (abs_le.1 hq.close).1
  have habove := (abs_le.1 hr.close).2
  -- The two fractions can only be the same one, halfway between neighbours.
  have hneighbour : (k : ℚ) = m + 1 := by linarith
  have hk : Even k := hq.even (by rw [show q - k = -(1 / 2) by linarith]; norm_num)
  have hm : Even m := hr.even (by rw [show r - m = 1 / 2 by linarith]; norm_num)
  have hodd : k = m + 1 := by exact_mod_cast hneighbour
  rw [hodd] at hk
  exact Int.not_even_iff_odd.2 hm.add_one hk

theorem self (k : ℤ) : IsNearest k k := by
  constructor
  · norm_num
  · rw [sub_self, abs_zero]
    intro h
    norm_num at h

theorem unique (hk : IsNearest q k) (hm : IsNearest q m) : k = m :=
  le_antisymm (hk.mono hm le_rfl) (hm.mono hk le_rfl)

/-- Seen from the fraction itself, the nearest whole number of units of size `1 / unit`. -/
theorem nearer_multiple {unit : ℚ} (hunit : 0 < unit) (h : IsNearest (q * unit) k) (hm : m ≠ k) :
    |q - k / unit| < |q - m / unit| ∨ |q - k / unit| = |q - m / unit| ∧ Even k := by
  have hscale (l : ℤ) : |q * unit - l| = |q - l / unit| * unit := by
    rw [← abs_of_pos hunit, ← abs_mul, abs_of_pos hunit, sub_mul, div_mul_cancel₀ _ hunit.ne']
  rcases h.nearer hm with hlt | ⟨heq, heven⟩
  · rw [hscale, hscale] at hlt
    exact .inl (lt_of_mul_lt_mul_right hlt hunit.le)
  · rw [hscale, hscale] at heq
    exact .inr ⟨mul_right_cancel₀ hunit.ne' heq, heven⟩

end IsNearest

theorem IsNearest.of_lt (h : |q - k| < 1 / 2) : IsNearest q k :=
  ⟨h.le, fun htie => absurd htie h.ne⟩

/-! ### Rounding a fraction -/

section Fraction

variable {num den : ℕ}

/-- A fraction is the whole number below it and the rest over the denominator. -/
theorem cast_div_eq_add (num : ℕ) (hden : 0 < den) :
    (num : ℚ) / den = (num / den : ℕ) + ((num % den : ℕ) : ℚ) / den := by
  have hpos : (den : ℚ) ≠ 0 := by exact_mod_cast hden.ne'
  have hdivide : ((den * (num / den) + num % den : ℕ) : ℚ) = num := by rw [Nat.div_add_mod]
  rw [← hdivide]
  push_cast
  field_simp

theorem roundHalfEven_of_low (h : 2 * (num % den) < den) : roundHalfEven num den = num / den := by
  unfold roundHalfEven
  rw [if_pos h]

theorem roundHalfEven_of_high (h : den < 2 * (num % den)) :
    roundHalfEven num den = num / den + 1 := by
  unfold roundHalfEven
  rw [if_neg (by omega), if_pos h]

theorem roundHalfEven_of_tie (h : 2 * (num % den) = den) :
    (roundHalfEven num den = num / den ∨ roundHalfEven num den = num / den + 1) ∧
      Even (roundHalfEven num den) := by
  unfold roundHalfEven
  rw [if_neg (by omega), if_neg (by omega)]
  split
  · rename_i heven
    exact ⟨Or.inl rfl, Nat.even_iff.2 heven⟩
  · rename_i hodd
    exact ⟨Or.inr rfl, Nat.even_add_one.2 fun heven => hodd (Nat.even_iff.1 heven)⟩

/-- **Rounding finds the nearest whole number.** -/
theorem isNearest_roundHalfEven (num : ℕ) (hden : 0 < den) :
    IsNearest ((num : ℚ) / den) (roundHalfEven num den) := by
  have hpos : (0 : ℚ) < den := by exact_mod_cast hden
  have hnonneg : (0 : ℚ) ≤ ((num % den : ℕ) : ℚ) / den := by positivity
  have hproper : ((num % den : ℕ) : ℚ) / den < 1 :=
    (div_lt_one hpos).2 (by exact_mod_cast Nat.mod_lt num hden)
  rw [cast_div_eq_add num hden]
  rcases lt_trichotomy (2 * (num % den)) den with hlow | htie | hhigh
  · have hhalf : ((num % den : ℕ) : ℚ) / den < 1 / 2 := by
      rw [div_lt_div_iff₀ hpos two_pos, one_mul, mul_comm]
      exact_mod_cast hlow
    refine .of_lt ?_
    rw [roundHalfEven_of_low hlow, Int.cast_natCast, add_sub_cancel_left, abs_of_nonneg hnonneg]
    exact hhalf
  · obtain ⟨hnear, heven⟩ := roundHalfEven_of_tie htie
    have hhalf : ((num % den : ℕ) : ℚ) / den = 1 / 2 := by
      rw [div_eq_div_iff hpos.ne' two_ne_zero, one_mul, mul_comm]
      exact_mod_cast htie
    refine ⟨?_, fun _ => by exact_mod_cast heven⟩
    rw [hhalf, Int.cast_natCast, abs_le]
    rcases hnear with hdown | hup
    · rw [hdown]
      constructor <;> linarith
    · rw [hup, Nat.cast_add, Nat.cast_one]
      constructor <;> linarith
  · have hhalf : 1 / 2 < ((num % den : ℕ) : ℚ) / den := by
      rw [div_lt_div_iff₀ two_pos hpos, one_mul, mul_comm _ (2 : ℚ)]
      exact_mod_cast hhigh
    refine .of_lt ?_
    rw [roundHalfEven_of_high hhigh, Int.cast_natCast, Nat.cast_add, Nat.cast_one, abs_lt]
    constructor <;> linarith

end Fraction

/-! ### What the bits stand for -/

namespace Binary64

variable {x y : Binary64}

/-- Infinities and what is not a number have the greatest exponent field; all else is finite. -/
def IsFinite (x : Binary64) : Prop :=
  x.exponentField ≠ 2047

instance (x : Binary64) : Decidable x.IsFinite :=
  inferInstanceAs (Decidable (x.exponentField ≠ 2047))

/-- The absolute value of a finite number.  With a zero exponent field the fraction field counts
units of the smallest number; any other exponent field puts a one before the binary point of the
fraction. -/
def size (x : Binary64) : ℚ :=
  if x.exponentField = 0 then x.fractionField * (2 : ℚ) ^ (-1074 : ℤ)
  else (1 + x.fractionField / (2 : ℚ) ^ 52) * (2 : ℚ) ^ ((x.exponentField : ℤ) - 1023)

/-- The number that finite bits stand for. -/
def value (x : Binary64) : ℚ :=
  if x.negative then -x.size else x.size

theorem abs_value (x : Binary64) : |x.value| = x.size := by
  have hsize : 0 ≤ x.size := by
    unfold size
    split <;> positivity
  unfold value
  split
  · rw [abs_neg, abs_of_nonneg hsize]
  · exact abs_of_nonneg hsize

theorem size_eq (x : Binary64) :
    x.size = x.significand * (2 : ℚ) ^ (x.scale : ℤ) / (2 : ℚ) ^ ((1074 : ℕ) : ℤ) := by
  unfold size significand scale
  split
  · rename_i hzero
    rw [hzero, Nat.zero_sub, Nat.cast_zero, zpow_zero, mul_one, zpow_neg, ← div_eq_mul_inv,
      Nat.cast_ofNat]
  · rename_i hexponent
    have hshift : (x.exponentField : ℤ) - 1023
        = ((x.exponentField - 1 : ℕ) : ℤ) + 52 - (1074 : ℕ) := by omega
    have hhidden : ((Nat.pow 2 52 : ℕ) : ℚ) = (2 : ℚ) ^ (52 : ℤ) := by norm_num
    rw [hshift, zpow_sub₀ two_ne_zero, zpow_add₀ two_ne_zero, ← mul_div_assoc, Nat.cast_add, hhidden]
    congr 1
    field_simp

/-- Rounding a number that is given by its significand and a power of two. -/
theorem isNearest_shifted (significand scale places unit : ℕ) :
    IsNearest (significand * (2 : ℚ) ^ (scale : ℤ) / (2 : ℚ) ^ (unit : ℤ) * 10 ^ places)
      (roundHalfEven (significand * Nat.pow 2 scale * Nat.pow 10 places) (Nat.pow 2 unit)) := by
  have hscaled : significand * (2 : ℚ) ^ (scale : ℤ) / (2 : ℚ) ^ (unit : ℤ) * 10 ^ places
      = (significand * Nat.pow 2 scale * Nat.pow 10 places : ℕ) / (Nat.pow 2 unit : ℕ) := by
    simp only [Nat.pow_eq, Nat.cast_mul, Nat.cast_pow, Nat.cast_ofNat, zpow_natCast]
    rw [div_mul_eq_mul_div]
  rw [hscaled]
  exact isNearest_roundHalfEven _ (Nat.pow_pos two_pos)

/-- The absolute value counted in units of a decimal place, rounded. -/
theorem isNearest_scaled (x : Binary64) (places : ℕ) :
    IsNearest (x.size * 10 ^ places) (x.scaled places) := by
  rw [size_eq, scaled]
  generalize (1074 : ℕ) = unit
  exact isNearest_shifted x.significand x.scale places unit

/-- How many units of a decimal place are written, with the sign. -/
def units (x : Binary64) (places : ℕ) : ℤ :=
  if x.negative then -(x.scaled places : ℤ) else x.scaled places

theorem isNearest_units (x : Binary64) (places : ℕ) :
    IsNearest (x.value * 10 ^ places) (x.units places) := by
  unfold value units
  split
  · rw [neg_mul]
    exact (isNearest_scaled x places).neg
  · exact isNearest_scaled x places

end Binary64

end Workbench
