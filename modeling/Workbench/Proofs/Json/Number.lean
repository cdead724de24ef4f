/-
Numbers.

The reader takes digits as far as they go, then a fraction and an exponent if they are there.  What
follows a number must not go on with it (`Stops`), and then each part is read exactly where it is
written.

The value belongs to the way of writing a number that the library prints.  Digits without a zero in
front are the digits that their number is printed with (`IsWhole.eq_digits`), so a value is read
where nothing follows the digits, and the one other text without a value is a zero with a sign.
-/
import Mathlib.Data.List.Basic
import Workbench.Proofs.Decimal.Fixed
import Workbench.Proofs.Json.Grammar

namespace Workbench.Json

variable {text rest figures fraction exponent : List Char} {c : Char}

/-! ### Digits, fractions and exponents -/

/-- What follows a number does not go on with it. -/
def Stops (rest : List Char) : Prop :=
  ∀ c ∈ rest.head?, c.isDigit = false ∧ c ≠ '.' ∧ c ≠ 'e' ∧ c ≠ 'E'

theorem areDigits_iff : areDigits text = true ↔ text ≠ [] ∧ ∀ c ∈ text, c.isDigit = true := by
  simp [areDigits]

/-- Digits are read as far as they go. -/
theorem readDigits_eq_some_iff :
    readDigits text = some (figures, rest) ↔
      areDigits figures = true ∧ text = figures ++ rest ∧ ∀ c ∈ rest.head?, c.isDigit = false := by
  rw [areDigits_iff]
  constructor
  · intro h
    by_cases hfound : text.takeWhile Char.isDigit = []
    · rw [readDigits, if_pos hfound] at h
      cases h
    · rw [readDigits, if_neg hfound] at h
      cases h
      refine ⟨⟨hfound, List.all_eq_true.1 List.all_takeWhile⟩,
        List.takeWhile_append_dropWhile.symm, fun c hc => ?_⟩
      have hstop := List.head?_dropWhile_not Char.isDigit text
      rwa [Option.mem_def.1 hc] at hstop
  · rintro ⟨⟨hne, hall⟩, rfl, hstop⟩
    have hnone : rest.takeWhile Char.isDigit = [] ∧ rest.dropWhile Char.isDigit = rest := by
      cases rest with
      | nil => exact ⟨rfl, rfl⟩
      | cons c rest =>
          have hc : ¬ c.isDigit = true := by simp [hstop c rfl]
          exact ⟨List.takeWhile_cons_of_neg hc, List.dropWhile_cons_of_neg hc⟩
    have htake : (figures ++ rest).takeWhile Char.isDigit = figures := by
      rw [List.takeWhile_append_of_pos hall, hnone.1, List.append_nil]
    have hdrop : (figures ++ rest).dropWhile Char.isDigit = rest := by
      rw [List.dropWhile_append_of_pos hall, hnone.2]
    rw [readDigits, htake, hdrop, if_neg hne]

theorem IsWhole.readWhole_eq (h : IsWhole figures) (hrest : ∀ c ∈ rest.head?, c.isDigit = false) :
    readWhole (figures ++ rest) = some (figures, rest) := by
  have hread := readDigits_eq_some_iff.2 ⟨h.isDigits, rfl, hrest⟩
  have hunpadded : ¬ (figures.head? = some '0' ∧ figures ≠ ['0']) :=
    fun hpadded => hpadded.2 (h.unpadded hpadded.1)
  rw [readWhole, hread]
  exact if_neg hunpadded

theorem isWhole_of_readWhole (h : readWhole text = some (figures, rest)) :
    IsWhole figures ∧ text = figures ++ rest := by
  obtain ⟨⟨found, behind⟩, hread, hpure⟩ := Option.bind_eq_some_iff.1 h
  obtain ⟨hdigits, rfl, -⟩ := readDigits_eq_some_iff.1 hread
  dsimp only at hpure
  split at hpure
  · cases hpure
  · rename_i hunpadded
    cases hpure
    exact ⟨⟨hdigits, fun hzero => Classical.not_not.1 fun hne => hunpadded ⟨hzero, hne⟩⟩, rfl⟩

theorem IsFraction.skip (h : IsFraction fraction)
    (hrest : ∀ c ∈ rest.head?, c.isDigit = false ∧ c ≠ '.') :
    skipFraction (fraction ++ rest) = some rest := by
  cases h with
  | absent =>
      rw [List.nil_append, skipFraction]
      rintro behind rfl
      exact (hrest '.' rfl).2 rfl
  | present hdigits =>
      rw [List.cons_append, skipFraction,
        readDigits_eq_some_iff.2 ⟨hdigits, rfl, fun c hc => (hrest c hc).1⟩]
      rfl

theorem isFraction_of_skip (h : skipFraction text = some rest) :
    ∃ fraction, IsFraction fraction ∧ text = fraction ++ rest := by
  unfold skipFraction at h
  split at h
  · obtain ⟨⟨found, behind⟩, hread, rfl⟩ := Option.map_eq_some_iff.1 h
    obtain ⟨hdigits, rfl, -⟩ := readDigits_eq_some_iff.1 hread
    exact ⟨_, .present hdigits, rfl⟩
  · cases h
    exact ⟨_, .absent, rfl⟩

theorem skipSign_append (h : text ≠ []) (rest : List Char) :
    skipSign (text ++ rest) = withoutSign text ++ rest := by
  unfold withoutSign
  split
  · rfl
  · rfl
  · rename_i hplus hminus
    cases text with
    | nil => exact absurd rfl h
    | cons c text =>
        rw [List.cons_append, skipSign]
        · rintro behind ⟨⟩
          exact hplus _ rfl
        · rintro behind ⟨⟩
          exact hminus _ rfl

/-- What a sign is skipped for can be put back behind it. -/
theorem exists_skipSign (text : List Char) :
    ∃ sign, text = sign ++ skipSign text ∧
      ∀ figures, areDigits figures = true → withoutSign (sign ++ figures) = figures := by
  unfold skipSign
  split
  · exact ⟨['+'], rfl, fun _ _ => rfl⟩
  · exact ⟨['-'], rfl, fun _ _ => rfl⟩
  · refine ⟨[], rfl, fun figures hfigures => ?_⟩
    obtain ⟨hne, hall⟩ := areDigits_iff.1 hfigures
    cases figures with
    | nil => exact absurd rfl hne
    | cons c figures =>
        have hc : c.isDigit = true := hall c List.mem_cons_self
        rw [List.nil_append, withoutSign]
        · rintro behind ⟨⟩
          cases hc
        · rintro behind ⟨⟩
          cases hc

theorem skipExponent_append (h : isExponent exponent = true) (hrest : Stops rest) :
    skipExponent (exponent ++ rest) = some rest := by
  cases exponent with
  | nil =>
      rw [List.nil_append, skipExponent]
      · rintro behind rfl
        exact (hrest 'e' rfl).2.2.1 rfl
      · rintro behind rfl
        exact (hrest 'E' rfl).2.2.2 rfl
  | cons c text =>
      simp only [isExponent, Bool.and_eq_true, Bool.or_eq_true, beq_iff_eq] at h
      obtain ⟨hc, hdigits⟩ := h
      have hne : text ≠ [] := by
        rintro rfl
        exact (areDigits_iff.1 hdigits).1 rfl
      have hread : readDigits (skipSign (text ++ rest)) = some (withoutSign text, rest) := by
        rw [skipSign_append hne]
        exact readDigits_eq_some_iff.2 ⟨hdigits, rfl, fun c hc => (hrest c hc).1⟩
      rcases hc with rfl | rfl <;> rw [List.cons_append, skipExponent, hread] <;> rfl

theorem isExponent_of_skip (h : skipExponent text = some rest) :
    ∃ exponent, isExponent exponent = true ∧ text = exponent ++ rest := by
  have hsigned : ∀ {behind : List Char} (c : Char), (c == 'e' || c == 'E') = true →
      (readDigits (skipSign behind)).map Prod.snd = some rest →
      ∃ exponent, isExponent exponent = true ∧ c :: behind = exponent ++ rest := by
    intro behind c hc hread
    obtain ⟨⟨found, rest'⟩, hdigits, rfl⟩ := Option.map_eq_some_iff.1 hread
    obtain ⟨hfound, hskip, -⟩ := readDigits_eq_some_iff.1 hdigits
    obtain ⟨sign, hsign, hwithout⟩ := exists_skipSign behind
    refine ⟨c :: (sign ++ found), ?_, ?_⟩
    · rw [isExponent, hwithout found hfound, hfound, hc]
      rfl
    · rw [hsign, hskip]
      simp
  unfold skipExponent at h
  split at h
  · exact hsigned 'e' rfl h
  · exact hsigned 'E' rfl h
  · cases h
    exact ⟨[], rfl, rfl⟩

theorem head?_exponent (h : isExponent exponent = true) (hrest : Stops rest) :
    ∀ c ∈ (exponent ++ rest).head?, c.isDigit = false ∧ c ≠ '.' := by
  cases exponent with
  | nil => exact fun c hc => ⟨(hrest c hc).1, (hrest c hc).2.1⟩
  | cons c text =>
      simp only [isExponent, Bool.and_eq_true, Bool.or_eq_true, beq_iff_eq] at h
      rintro d ⟨⟩
      rcases h.1 with rfl | rfl <;> decide

theorem IsFraction.head?_append (h : IsFraction fraction)
    (hrest : ∀ c ∈ rest.head?, c.isDigit = false) :
    ∀ c ∈ (fraction ++ rest).head?, c.isDigit = false := by
  cases h with
  | absent => exact hrest
  | present _ =>
      rintro c ⟨⟩
      rfl

/-! ### The value of a number -/

/-- A minus sign, or nothing. -/
def minus (negative : Bool) : List Char :=
  if negative then ['-'] else []

/-- The value of a number, which its digits have if nothing follows them and they are no zero with a
sign. -/
def numberValue (negative : Bool) (figures behind : List Char) : Option Int :=
  if behind ≠ [] ∨ (negative = true ∧ figures = ['0']) then none
  else (readNatural figures).map fun n => if negative then -(n : Int) else (n : Int)

theorem length_lt_iff : rest.length < (fraction ++ (exponent ++ rest)).length ↔
    fraction ++ exponent ≠ [] := by
  rw [← List.length_pos_iff, List.length_append, List.length_append, List.length_append]
  omega

theorem readNumber_append (negative : Bool) (hfigures : IsWhole figures)
    (hfraction : IsFraction fraction) (hexponent : isExponent exponent = true)
    (hrest : Stops rest) :
    readNumber negative (figures ++ (fraction ++ (exponent ++ rest))) =
      some (numberValue negative figures (fraction ++ exponent), rest) := by
  have hbehind := head?_exponent hexponent hrest
  unfold readNumber
  rw [hfigures.readWhole_eq (hfraction.head?_append fun c hc => (hbehind c hc).1)]
  simp only [Option.bind_eq_bind, Option.bind_some, hfraction.skip hbehind,
    skipExponent_append hexponent hrest, length_lt_iff, numberValue]
  rfl

theorem exists_of_readNumber {negative : Bool} {whole : Option Int}
    (h : readNumber negative text = some (whole, rest)) :
    ∃ figures fraction exponent, IsWhole figures ∧ IsFraction fraction ∧
      isExponent exponent = true ∧ text = figures ++ (fraction ++ (exponent ++ rest)) ∧
      whole = numberValue negative figures (fraction ++ exponent) := by
  obtain ⟨⟨figures, behind⟩, hwhole, h⟩ := Option.bind_eq_some_iff.1 h
  obtain ⟨behind', hskip, h⟩ := Option.bind_eq_some_iff.1 h
  obtain ⟨rest', hskip', hpure⟩ := Option.bind_eq_some_iff.1 h
  obtain ⟨hfigures, rfl⟩ := isWhole_of_readWhole hwhole
  obtain ⟨fraction, hfraction, rfl⟩ := isFraction_of_skip hskip
  obtain ⟨exponent, hexponent, rfl⟩ := isExponent_of_skip hskip'
  simp only [length_lt_iff] at hpure
  cases hpure
  exact ⟨figures, fraction, exponent, hfigures, hfraction, hexponent, rfl, rfl⟩

/-! ### Printed numbers -/

theorem isWhole_digits (n : Nat) : IsWhole (digits n) where
  isDigits := areDigits_iff.2 ⟨Nat.toDigits_ne_nil, fun _ => isDigit_of_mem_digits⟩
  unpadded := by
    intro h
    rw [eq_zero_of_head?_digits h]
    rfl

theorem exists_digitChar (h : c.isDigit = true) : ∃ n, n < 10 ∧ c = n.digitChar := by
  have hrange : 48 ≤ c.toNat ∧ c.toNat ≤ 57 := Char.isDigit_iff_toNat.1 h
  have hsmall : c.toNat - 48 < 10 := by omega
  refine ⟨c.toNat - 48, hsmall, Char.toNat_inj.1 ?_⟩
  rw [Nat.toNat_digitChar_of_lt_ten hsmall]
  omega

/-- **Digits without a zero in front are the digits that their number is printed with.** -/
theorem IsWhole.eq_digits (h : IsWhole figures) :
    figures = digits (Nat.ofDigitChars 10 figures 0) := by
  induction figures using List.reverseRecOn with
  | nil => exact absurd rfl (areDigits_iff.1 h.isDigits).1
  | append_singleton front c ih =>
      obtain ⟨-, hall⟩ := areDigits_iff.1 h.isDigits
      obtain ⟨n, hn, rfl⟩ := exists_digitChar (hall c (by simp))
      have hlast : [n.digitChar] = digits n := (Nat.toDigits_of_lt_base hn).symm
      rw [Nat.ofDigitChars_append, Nat.ofDigitChars_cons_digitChar_of_lt_ten hn,
        Nat.ofDigitChars_nil]
      by_cases hfront : front = []
      · rw [hfront, List.nil_append, Nat.ofDigitChars_nil, Nat.mul_zero, Nat.zero_add, hlast]
      -- The digits in front begin with the same digit, so that it is no zero.
      · have hhead : front.head? ≠ some '0' := by
          intro hzero
          have hwhole := h.unpadded (by rw [List.head?_append_of_ne_nil _ hfront, hzero])
          exact hfront (by simpa using congrArg List.length hwhole)
        have hdigits : front = digits (Nat.ofDigitChars 10 front 0) :=
          ih ⟨areDigits_iff.2 ⟨hfront, fun c hc => hall c (List.mem_append_left _ hc)⟩,
            fun hzero => absurd hzero hhead⟩
        have hpos : 0 < Nat.ofDigitChars 10 front 0 := by
          refine Nat.pos_of_ne_zero fun hzero => hhead ?_
          rw [hdigits, hzero]
          rfl
        conv_lhs => rw [hlast, hdigits]
        exact Nat.toDigits_append_toDigits (by decide) hpos hn

/-- The value of printed digits without anything behind them is their number. -/
theorem numberValue_digits {negative : Bool} {n : Nat}
    (h : ¬ (negative = true ∧ digits n = ['0'])) :
    numberValue negative (digits n) [] = some (if negative then -(n : Int) else (n : Int)) := by
  have hread : readNatural (digits n) = some n :=
    readNatural_eq_some_iff.2
      ⟨Nat.toDigits_ne_nil, fun _ => isDigit_of_mem_digits, ofDigitChars_digits n⟩
  rw [numberValue, if_neg (not_or.2 ⟨not_not.2 rfl, h⟩), hread]
  rfl

theorem toList_toString {negative : Bool} {n : Nat} (h : ¬ (negative = true ∧ digits n = ['0'])) :
    (toString (if negative then -(n : Int) else (n : Int))).toList = minus negative ++ digits n := by
  cases negative with
  | false => exact Nat.toList_repr
  | true =>
      cases n with
      | zero => exact absurd ⟨rfl, rfl⟩ h
      | succ n =>
          show ("-" ++ (n + 1).repr).toList = '-' :: digits (n + 1)
          rw [String.toList_append, Nat.toList_repr]
          rfl

/-- A whole number has a sign or none, and a zero has none. -/
theorem exists_signed (i : Int) : ∃ (negative : Bool) (n : Nat),
    (if negative then -(n : Int) else (n : Int)) = i ∧ ¬ (negative = true ∧ digits n = ['0']) := by
  cases i with
  | ofNat n => exact ⟨false, n, rfl, fun h => nomatch h.1⟩
  | negSucc n =>
      refine ⟨true, n + 1, rfl, fun h => ?_⟩
      exact absurd (eq_zero_of_head?_digits (congrArg List.head? h.2)) (Nat.succ_ne_zero n)

/-- **A number is written as digits with a sign or without, and perhaps a fraction and an
exponent.** -/
theorem isNumber_iff {whole : Option Int} : IsNumber whole text ↔
    ∃ negative figures fraction exponent, IsWhole figures ∧ IsFraction fraction ∧
      isExponent exponent = true ∧
      text = minus negative ++ (figures ++ (fraction ++ exponent)) ∧
      whole = numberValue negative figures (fraction ++ exponent) := by
  constructor
  · intro h
    cases h with
    | printed i =>
        obtain ⟨negative, n, rfl, hzero⟩ := exists_signed i
        refine ⟨negative, digits n, [], [], isWhole_digits n, .absent, rfl, ?_,
          (numberValue_digits hzero).symm⟩
        rw [toList_toString hzero, List.append_nil, List.append_nil]
    | minusZero => exact ⟨true, ['0'], [], [], ⟨rfl, fun _ => rfl⟩, .absent, rfl, rfl, rfl⟩
    | other hsign hdigits hfraction hexponent h =>
        rcases hsign with rfl | rfl
        · exact ⟨false, _, _, _, hdigits, hfraction, hexponent, rfl, (if_pos (Or.inl h)).symm⟩
        · exact ⟨true, _, _, _, hdigits, hfraction, hexponent, rfl, (if_pos (Or.inl h)).symm⟩
  · rintro ⟨negative, figures, fraction, exponent, hfigures, hfraction, hexponent, rfl, rfl⟩
    by_cases hbehind : fraction ++ exponent = []
    · rw [hbehind, List.append_nil, hfigures.eq_digits]
      by_cases hzero : negative = true ∧ digits (Nat.ofDigitChars 10 figures 0) = ['0']
      · rw [hzero.1, hzero.2]
        exact .minusZero
      · rw [numberValue_digits hzero, ← toList_toString hzero]
        exact .printed _
    · rw [numberValue, if_pos (Or.inl hbehind)]
      refine .other ?_ hfigures hfraction hexponent hbehind
      cases negative
      · exact Or.inl rfl
      · exact Or.inr rfl

end Workbench.Json
