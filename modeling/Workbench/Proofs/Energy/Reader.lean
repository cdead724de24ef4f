/-
What is read from the output of a helper.

Only the printed text counts, and of that only what stands between its outermost blanks: there is
a reading exactly if this spells a number of sixty-four bits, and then the reading is that number.
How the helper has ended and what it has printed for diagnosis do not occur in the reading at all.
The ends of a numeral are digits or signs and never blank, so that blanks around a printed number
are told from it.
-/
import Mathlib
import Workbench.Energy.Reader
import Workbench.Proofs.Decimal.Integer
import Workbench.Proofs.Payload

namespace Workbench

variable {text before numeral behind : List Char} {c : Char} {n : Nat} {i : Int}

/-! ### Numerals between blanks -/

theorem isBlank_of_isDigit (h : c.isDigit = true) : Text.isBlank c = false := by
  have hrange : 48 ≤ c.toNat ∧ c.toNat ≤ 57 := Char.isDigit_iff_toNat.1 h
  unfold Text.isBlank
  simp only [Bool.or_eq_false_iff, Bool.and_eq_false_iff, decide_eq_false_iff_not, beq_eq_false_iff_ne]
  omega

theorem SpellsNatural.isBlank_getLast? (h : SpellsNatural text n) :
    ∀ c ∈ text.getLast?, Text.isBlank c = false :=
  fun c hc => isBlank_of_isDigit (h.isDigit c (List.mem_of_getLast? hc))

theorem SpellsNatural.isBlank_getLast?_cons (h : SpellsNatural text n) :
    ∀ c' ∈ (c :: text).getLast?, Text.isBlank c' = false := by
  rw [List.getLast?_cons_of_ne_nil h.ne_nil]
  exact h.isBlank_getLast?

theorem Spells.isTrimmed (h : Spells numeral i) (hbefore : Text.allBlank before = true)
    (hbehind : Text.allBlank behind = true) :
    Text.IsTrimmed (before ++ (numeral ++ behind)) numeral where
  around := ⟨before, behind, hbefore, hbehind, rfl⟩
  head := by
    cases h with
    | plain h => exact fun c hc => isBlank_of_isDigit (h.isDigit c (List.mem_of_head? hc))
    | plus h | minus h =>
        rintro c ⟨⟩
        decide
  last := by
    cases h with
    | plain h => exact h.isBlank_getLast?
    | plus h | minus h => exact h.isBlank_getLast?_cons

/-- Blanks around a numeral are dropped. -/
theorem Spells.trim_eq (h : Spells numeral i) (hbefore : Text.allBlank before = true)
    (hbehind : Text.allBlank behind = true) :
    Text.trim (before ++ (numeral ++ behind)) = numeral :=
  Text.trim_eq_iff.2 (h.isTrimmed hbefore hbehind)

/-- The text between the outermost blanks is a numeral exactly if one stands there. -/
theorem spells_trim_iff :
    Spells (Text.trim text) i ↔ ∃ numeral, Text.IsTrimmed text numeral ∧ Spells numeral i := by
  constructor
  · exact fun h => ⟨_, Text.isTrimmed_trim text, h⟩
  · rintro ⟨numeral, htrimmed, h⟩
    rwa [Text.trim_eq_iff.2 htrimmed]

namespace Energy.Reader

variable {reader : Reader} {machine : Machine} {output : Output} {reading : Sample}

/-! ### The reading of a helper's output -/

theorem sampleOf_some_eq_some_iff :
    reader.sampleOf (some output) = some reading ↔
      reading.domain = reader.domain ∧
        Spells (Text.trim output.stdoutText.toList) reading.value.toInt := by
  unfold sampleOf valueOf
  rw [Option.bind_some, Option.map_eq_some_iff]
  simp only [readInt64_eq_some_iff]
  constructor
  · rintro ⟨value, htext, rfl⟩
    exact ⟨rfl, htext⟩
  · rintro ⟨hdomain, htext⟩
    refine ⟨reading.value, htext, ?_⟩
    rw [← hdomain]

theorem isSome_sampleOf_some_iff :
    (reader.sampleOf (some output)).isSome = true ↔
      ∃ i, Spells (Text.trim output.stdoutText.toList) i ∧
        -9223372036854775808 ≤ i ∧ i ≤ 9223372036854775807 := by
  unfold sampleOf valueOf
  rw [Option.isSome_map, Option.bind_some]
  exact isSome_readInt64_iff

theorem stdoutText_of_encode (h : output.stdout = Utf8.encode (String.ofList text)) :
    output.stdoutText.toList = text := by
  show (Utf8.decodeLossy output.stdout).toList = text
  rw [h, Utf8.decodeLossy_of_ok (Utf8.decode_encode _), String.toList_ofList]

theorem sampleOf_printed {value : Int64} (hbefore : Text.allBlank before = true)
    (hbehind : Text.allBlank behind = true)
    (h : output.stdout =
      Utf8.encode (String.ofList (before ++ ((toString value).toList ++ behind)))) :
    reader.sampleOf (some output) = some ⟨reader.domain, value⟩ := by
  have hnumeral : Spells (toString value).toList value.toInt := spells_toString value.toInt
  rw [sampleOf_some_eq_some_iff, stdoutText_of_encode h, hnumeral.trim_eq hbefore hbehind]
  exact ⟨rfl, hnumeral⟩

/-- **A reading is what the helper has printed, between blanks, and nothing else counts.**  For a
helper that has been started there is a reading exactly if the text between the outermost blanks
spells a number of sixty-four bits; the reading then has this number and the domain that was asked
for.  Another run that prints the same gives the same reading, however it ends and whatever
it says for diagnosis, and every number that is printed is read back. -/
theorem sample_iff_printed (reader : Reader) (machine : Machine) (output : Output)
    (hrun : machine.run? reader.command = some output) :
    (∀ reading, reader.sample machine = some reading ↔
      reading.domain = reader.domain ∧ ∃ numeral,
        Text.IsTrimmed (Utf8.decodeLossy output.stdout).toList numeral ∧
          Spells numeral reading.value.toInt) ∧
    ((reader.sample machine).isSome = true ↔
      ∃ numeral i, Text.IsTrimmed (Utf8.decodeLossy output.stdout).toList numeral ∧
        Spells numeral i ∧ -9223372036854775808 ≤ i ∧ i ≤ 9223372036854775807) ∧
    (∀ (other : Machine) (again : Output), other.run? reader.command = some again →
      again.stdout = output.stdout → reader.sample other = reader.sample machine) ∧
    (∀ (value : Int64) (before behind : List Char),
      Text.allBlank before = true → Text.allBlank behind = true →
      output.stdout =
        Utf8.encode (String.ofList (before ++ ((toString value).toList ++ behind))) →
      reader.sample machine = some ⟨reader.domain, value⟩) := by
  have hsample : reader.sample machine = reader.sampleOf (some output) := by rw [sample, hrun]
  rw [hsample]
  refine ⟨?_, ?_, ?_, ?_⟩
  · intro reading
    rw [sampleOf_some_eq_some_iff, spells_trim_iff]
    rfl
  · rw [isSome_sampleOf_some_iff]
    constructor
    · rintro ⟨i, hspells, hrange⟩
      obtain ⟨numeral, htrimmed, h⟩ := spells_trim_iff.1 hspells
      exact ⟨numeral, i, htrimmed, h, hrange⟩
    · rintro ⟨numeral, i, htrimmed, h, hrange⟩
      exact ⟨i, spells_trim_iff.2 ⟨numeral, htrimmed, h⟩, hrange⟩
  · intro other again hagain hstdout
    have htext : again.stdoutText = output.stdoutText := by
      rw [Output.stdoutText, hstdout, Output.stdoutText]
    rw [sample, hagain]
    unfold sampleOf valueOf
    rw [Option.bind_some, Option.bind_some, htext]
  · intro value before behind hbefore hbehind hprinted
    exact sampleOf_printed hbefore hbehind hprinted

/-- What a helper leaves that prints a number between blanks, complains, and is killed. -/
def killedOutput : Output :=
  ⟨.signal 9, Utf8.encode "\t-7\n", Utf8.encode "too late"⟩

/-- A machine with such a helper. -/
def meterMachine : Machine where
  files := ⟨.directory true [("meter".toList, .file [127] 0o755)], []⟩
  environment := default
  programs := [(["meter".toList], fun _ _ => killedOutput)]
  scripts := []

/-- The helper is believed although it has been killed. -/
theorem sample_iff_printed_killed :
    meterMachine.run? (command ⟨"meter".toList, .core⟩) = some killedOutput ∧
      sample ⟨"meter".toList, .core⟩ meterMachine = some ⟨.core, -7⟩ := by
  have hrun : meterMachine.run? (command ⟨"meter".toList, .core⟩) = some killedOutput := by cbv
  obtain ⟨-, -, -, hprinted⟩ :=
    sample_iff_printed ⟨"meter".toList, .core⟩ meterMachine killedOutput hrun
  exact ⟨hrun, hprinted (-7) ['\t'] ['\n'] (by decide) (by decide) (by cbv)⟩

end Energy.Reader

end Workbench
