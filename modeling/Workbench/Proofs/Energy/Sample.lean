/-
What a counter gains over several readings.

A difference has an answer exactly if the counter has gained something, or nothing, and the gain is
in range (`Gains`).  As whole numbers gains add up along the readings, whatever their size, and the
domain stays the same.  So the difference of the first and the last reading is the sum of the
differences of neighbours, unless that sum has outgrown the range.
-/
import Mathlib.Algebra.Order.Ring.Int
import Workbench.Energy.Sample
import Workbench.Proofs.Decimal.Integer

namespace Workbench.Energy

/-- Between two readings of one domain a counter has gained `gain`, a number of any size. -/
structure Gains (first later : Sample) (gain : Int) : Prop where
  domain : first.domain = later.domain
  value : later.value.toInt = first.value.toInt + gain
  nonneg : 0 ≤ gain

section Gains

variable {first between later : Sample} {gain more : Int} {answer : Int64}

theorem Gains.refl (reading : Sample) : Gains reading reading 0 :=
  ⟨rfl, by omega, by omega⟩

/-- Gains add up. -/
theorem Gains.trans (h : Gains first between gain) (hmore : Gains between later more) :
    Gains first later (gain + more) where
  domain := h.domain.trans hmore.domain
  value := by
    have hfirst := h.value
    have hlater := hmore.value
    omega
  nonneg := Int.add_nonneg h.nonneg hmore.nonneg

/-- The difference is the gain, if that is in range. -/
theorem Gains.delta_eq (h : Gains first later gain) : first.delta later = toInt64? gain := by
  have hvalue := h.value
  have hnonneg := h.nonneg
  have hforward : ¬ (first.domain ≠ later.domain ∨ later.value < first.value) := by
    rw [Int64.lt_iff_toInt_lt]
    simp only [h.domain, ne_eq, not_true_eq_false, false_or]
    omega
  have hgain : later.value.toInt - first.value.toInt = gain := by omega
  rw [Sample.delta, if_neg hforward, hgain]

/-- **An answer is the exact gain.** -/
theorem delta_eq_some_iff :
    first.delta later = some answer ↔ Gains first later answer.toInt := by
  refine ⟨fun h => ?_, fun h => h.delta_eq.trans (toInt64?_eq_some_iff.2 rfl)⟩
  unfold Sample.delta at h
  split at h
  · cases h
  · rename_i hforward
    rw [not_or, ne_eq, Classical.not_not, Int64.lt_iff_toInt_lt] at hforward
    have hanswer := toInt64?_eq_some_iff.1 h
    exact ⟨hforward.1, by omega, by omega⟩

theorem Gains.delta_eq_none (h : Gains first later gain) (hlarge : Int64.maxValue.toInt < gain) :
    first.delta later = none := by
  rw [h.delta_eq, Option.eq_none_iff_forall_ne_some]
  intro answer hanswer
  have hin := toInt64?_eq_some_iff.1 hanswer
  have hmax := answer.toInt_le
  omega

theorem Gains.exists_delta_eq (h : Gains first later gain) (hsmall : gain ≤ Int64.maxValue.toInt) :
    ∃ answer, first.delta later = some answer ∧ answer.toInt = gain := by
  have hmin : Int64.minValue.toInt ≤ gain := Int.le_trans (by decide) h.nonneg
  have hgain : (Int64.ofInt gain).toInt = gain :=
    Int64.toInt_ofInt_of_le hmin (Int.lt_add_one_of_le hsmall)
  exact ⟨Int64.ofInt gain, h.delta_eq.trans (toInt64?_eq_some_iff.2 hgain), hgain⟩

/-- Only equal readings have gained something from each other. -/
theorem delta_ne_none_iff_eq : (first.delta later ≠ none ∧ later.delta first ≠ none) ↔
    first = later := by
  constructor
  · rintro ⟨hforth, hback⟩
    obtain ⟨gain, hgain⟩ := Option.ne_none_iff_exists'.1 hforth
    obtain ⟨loss, hloss⟩ := Option.ne_none_iff_exists'.1 hback
    have hforward := delta_eq_some_iff.1 hgain
    have hbackward := delta_eq_some_iff.1 hloss
    have hvalue : first.value.toInt = later.value.toInt := by
      have hup := hforward.value
      have hdown := hbackward.value
      have hgained := hforward.nonneg
      have hlost := hbackward.nonneg
      omega
    obtain ⟨domain, value⟩ := first
    obtain ⟨other, last⟩ := later
    obtain rfl : domain = other := hforward.domain
    obtain rfl : value = last := Int64.toInt_inj.1 hvalue
    rfl
  · rintro rfl
    obtain ⟨answer, hanswer, -⟩ := (Gains.refl first).exists_delta_eq (by decide)
    simp [hanswer]

end Gains

/-! ### Many readings -/

/-- Gains of neighbours add up to the gain from the first reading to the last. -/
theorem gains_getLast {readings : List Sample} {first last : Sample} {answers : List Int64}
    (hfirst : readings.head? = some first) (hlast : readings.getLast? = some last)
    (h : deltas (readings.map some) = answers.map some) :
    Gains first last (answers.map Int64.toInt).sum := by
  induction readings generalizing first answers with
  | nil => cases hfirst
  | cons reading rest ih =>
      obtain rfl : reading = first := Option.some.inj hfirst
      cases rest with
      | nil =>
          obtain rfl : reading = last := Option.some.inj hlast
          obtain rfl : answers = [] := by simpa [deltas] using h.symm
          exact Gains.refl reading
      | cons next rest =>
          cases answers with
          | nil => cases h
          | cons answer answers =>
              obtain ⟨hanswer, hanswers⟩ := List.cons.inj h
              rw [List.map_cons, List.sum_cons]
              exact (delta_eq_some_iff.1 hanswer).trans
                (ih rfl (by rwa [List.getLast?_cons_cons] at hlast) hanswers)

theorem delta_of_deltas {readings : List Sample} {answers : List Int64}
    (h : deltas (readings.map some) = answers.map some) {i : Nat} {first later : Sample}
    (hfirst : readings[i]? = some first) (hlater : readings[i + 1]? = some later) :
    ∃ answer, answers[i]? = some answer ∧ first.delta later = some answer := by
  induction readings generalizing i answers with
  | nil => cases hfirst
  | cons reading rest ih =>
      cases rest with
      | nil => simp at hlater
      | cons next rest =>
          cases answers with
          | nil => cases h
          | cons answer answers =>
              obtain ⟨hanswer, hanswers⟩ := List.cons.inj h
              cases i with
              | zero =>
                  obtain rfl : reading = first := Option.some.inj hfirst
                  obtain rfl : next = later := Option.some.inj hlater
                  exact ⟨answer, rfl, hanswer⟩
              | succ i => exact ih hanswers hfirst hlater

/-- **Differences of neighbours telescope.**  Where they all have an answer, each answer is the exact
difference of two values and not negative, and the difference of the first reading and the last is
the exact sum of the answers, if that sum is in range; else there is none.  Two readings have
differences in both directions only if they are equal. -/
theorem delta_telescopes :
    (∀ (readings : List Sample) (first last : Sample) (answers : List Int64),
      readings.head? = some first → readings.getLast? = some last →
      deltas (readings.map some) = answers.map some →
        (∀ (i : Nat) (a b : Sample), readings[i]? = some a → readings[i + 1]? = some b →
          ∃ answer, answers[i]? = some answer ∧ a.delta b = some answer ∧ 0 ≤ answer.toInt ∧
            answer.toInt ≤ Int64.maxValue.toInt ∧ answer.toInt = b.value.toInt - a.value.toInt) ∧
        ((answers.map Int64.toInt).sum ≤ Int64.maxValue.toInt →
          ∃ total, first.delta last = some total ∧ total.toInt = (answers.map Int64.toInt).sum) ∧
        (Int64.maxValue.toInt < (answers.map Int64.toInt).sum → first.delta last = none)) ∧
      ∀ a b : Sample, (a.delta b ≠ none ∧ b.delta a ≠ none) ↔ a = b := by
  refine ⟨fun readings first last answers hfirst hlast hanswers => ?_, fun _ _ =>
    delta_ne_none_iff_eq⟩
  have htotal := gains_getLast hfirst hlast hanswers
  refine ⟨fun i a b ha hb => ?_, htotal.exists_delta_eq, htotal.delta_eq_none⟩
  obtain ⟨answer, hmem, hdelta⟩ := delta_of_deltas hanswers ha hb
  have hgain := delta_eq_some_iff.1 hdelta
  have hvalue := hgain.value
  exact ⟨answer, hmem, hdelta, hgain.nonneg, answer.toInt_le, by omega⟩

/-- A counter that runs through more than half of its range, in steps that are each in range. -/
def longRun : List Sample := [⟨.core, -9223372036854775808⟩, ⟨.core, -1⟩, ⟨.core, 1⟩]

/-- The steps have answers, and the whole way has none. -/
theorem delta_telescopes_longRun :
    deltas (longRun.map some) = [9223372036854775807, 2].map some ∧
      (Sample.mk .core (-9223372036854775808)).delta ⟨.core, 1⟩ = none := by
  have hanswers : deltas (longRun.map some) = [9223372036854775807, 2].map some := by decide
  obtain ⟨-, -, hlarge⟩ := delta_telescopes.1 longRun ⟨.core, -9223372036854775808⟩ ⟨.core, 1⟩
    [9223372036854775807, 2] rfl rfl hanswers
  exact ⟨hanswers, hlarge (by decide)⟩

end Workbench.Energy
