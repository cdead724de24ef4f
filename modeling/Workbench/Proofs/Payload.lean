/-
Bytes read strictly and leniently.

The lenient reading is the strict one begun again behind every fault.  Up to the first fault the two
agree; there the strict reading ends with the fault and the lenient one writes a replacement
character, steps over the bytes that the fault covers, and reads on as if they had never been.  So
the lenient text is what lies between the faults, with one replacement character for each of them,
and it has one of its own exactly where the strict reading fails.
-/
import Workbench.Failure
import Workbench.Payload
import Workbench.Proofs.Utf8.Faults

namespace Workbench

namespace Utf8

variable {bytes : List UInt8} {parts : List (List Char)} {length index : Nat}

/-- The texts between the faults of bytes, in order; behind a character that the bytes end inside of
there is no text left. -/
inductive AreParts : List UInt8 → List (List Char) → Prop
  | text {bytes : List UInt8} {text : String} (htext : decode bytes = .ok text) :
      AreParts bytes [text.toList]
  | invalid {bytes : List UInt8} {length index : Nat} {front : String} {parts : List (List Char)}
      (hfault : decode bytes = .error (.invalid length index))
      (hfront : decode (bytes.take index) = .ok front)
      (hparts : AreParts (bytes.drop (index + length)) parts) :
      AreParts bytes (front.toList :: parts)
  | incomplete {bytes : List UInt8} {index : Nat} {front : String}
      (hfault : decode bytes = .error (.incomplete index))
      (hfront : decode (bytes.take index) = .ok front) : AreParts bytes [front.toList, []]

theorem decodeLossy_of_incomplete (h : decode bytes = .error (.incomplete index)) :
    ∃ front, bytes.take index = encode front ∧ decodeLossy bytes = front ++ replacement := by
  cases decoding bytes with
  | text text hbytes hdecode => rw [h] at hdecode; cases hdecode
  | invalid front bad rest hbytes hdecode => rw [h] at hdecode; cases hdecode
  | incomplete front rest hbytes hdecode hexplains hlossy =>
      rw [h] at hdecode
      cases hdecode
      exact ⟨front, by rw [hbytes, List.take_left], hlossy⟩

theorem decodeLossy_of_invalid (h : decode bytes = .error (.invalid length index)) :
    ∃ front, bytes.take index = encode front ∧
      decodeLossy bytes = front ++ (replacement ++ decodeLossy (bytes.drop (index + length))) := by
  cases decoding bytes with
  | text text hbytes hdecode => rw [h] at hdecode; cases hdecode
  | incomplete front rest hbytes hdecode => rw [h] at hdecode; cases hdecode
  | invalid front bad rest hbytes hdecode hexplains hlossy =>
      rw [h] at hdecode
      cases hdecode
      refine ⟨front, by rw [hbytes, List.take_left], ?_⟩
      rw [hlossy, hbytes, List.drop_length_add_append, List.drop_left]

theorem decodeLossy_of_ok {text : String} (h : decode bytes = .ok text) : decodeLossy bytes = text := by
  cases decoding bytes with
  | text other hbytes hdecode hlossy =>
      rw [h] at hdecode
      cases hdecode
      exact hlossy
  | invalid front bad rest hbytes hdecode => rw [h] at hdecode; cases hdecode
  | incomplete front rest hbytes hdecode => rw [h] at hdecode; cases hdecode

/-! ### Between the faults -/

theorem exists_areParts (bytes : List UInt8) : ∃ parts, AreParts bytes parts := by
  induction hlength : bytes.length using Nat.strongRecOn generalizing bytes with
  | _ n ih =>
      cases hdecode : decode bytes with
      | ok text => exact ⟨_, .text hdecode⟩
      | error fault =>
          have hexplains := decode_eq_error_iff.1 hdecode
          cases fault with
          | incomplete index =>
              obtain ⟨front, hfront, -⟩ := decodeLossy_of_incomplete hdecode
              exact ⟨_, .incomplete hdecode (decode_eq_ok_iff.2 hfront)⟩
          | invalid length index =>
              obtain ⟨front, hfront, -⟩ := decodeLossy_of_invalid hdecode
              obtain ⟨-, -, hpos, hle, -, -⟩ := hexplains
              have hshorter : (bytes.drop (index + length)).length < n := by
                rw [List.length_drop]
                omega
              obtain ⟨parts, hparts⟩ := ih _ hshorter _ rfl
              exact ⟨_, .invalid hdecode (decode_eq_ok_iff.2 hfront) hparts⟩

theorem AreParts.ne_nil (h : AreParts bytes parts) : parts ≠ [] := by
  cases h <;> exact List.cons_ne_nil _ _

/-- **The lenient text is what lies between the faults, with a replacement for each of them.** -/
theorem AreParts.toList_decodeLossy (h : AreParts bytes parts) :
    (decodeLossy bytes).toList = ['\uFFFD'].intercalate parts := by
  induction h with
  | text htext => rw [decodeLossy_of_ok htext, List.intercalate_singleton]
  | @invalid bytes length index front parts hfault hfront hparts ih =>
      obtain ⟨text, htext, hlossy⟩ := decodeLossy_of_invalid hfault
      obtain rfl : text = front := encode_inj (htext.symm.trans (decode_eq_ok_iff.1 hfront))
      rw [hlossy, List.intercalate_cons_of_ne_nil hparts.ne_nil, ← ih, String.toList_append,
        String.toList_append, List.append_assoc]
      rfl
  | incomplete hfault hfront =>
      obtain ⟨text, htext, hlossy⟩ := decodeLossy_of_incomplete hfault
      obtain rfl := encode_inj (htext.symm.trans (decode_eq_ok_iff.1 hfront))
      rw [hlossy, String.toList_append]
      rfl

theorem AreParts.length_eq_one_iff (h : AreParts bytes parts) :
    parts.length = 1 ↔ ∃ text, decode bytes = .ok text := by
  cases h with
  | text htext => exact iff_of_true rfl ⟨_, htext⟩
  | invalid hfault hfront hparts =>
      refine iff_of_false ?_ (by simp [hfault])
      simpa using hparts.ne_nil
  | incomplete hfault hfront => exact iff_of_false (by simp) (by simp [hfault])

theorem count_intercalate (c : Char) (hne : parts ≠ []) :
    ([c].intercalate parts).count c + 1 = parts.flatten.count c + parts.length := by
  induction parts with
  | nil => exact absurd rfl hne
  | cons part parts ih =>
      by_cases hlast : parts = []
      · simp [hlast]
      · have hrest := ih hlast
        rw [List.intercalate_cons_of_ne_nil hlast, List.flatten_cons, List.count_append,
          List.count_append, List.count_append, List.length_cons, List.count_singleton_self]
        omega

end Utf8

namespace Payload

open Utf8 (encode Explains AreParts replacement)

theorem message_decode (fault : Utf8.Fault) :
    (Failure.decode fault).message = "Invalid UTF-8 in output: " ++ fault.message := by
  have hlabel : "Invalid UTF-8 in output" ++ ": " = "Invalid UTF-8 in output: " := by decide
  rw [← hlabel]
  rfl

/-- **The strict and the lenient reading of bytes agree.**  The strict one accepts exactly the bytes
of a text, and then the two are that text.  Otherwise it reports the fault that explains the bytes,
and the lenient text is the text in front of the fault, a replacement, and the lenient text of what
is behind the fault.  So the lenient text has replacements besides those in the texts between the
faults exactly if the strict reading fails; and its own bytes are read as itself in both ways. -/
theorem toText_toTextLossy (content : List UInt8) :
    (∀ text, (bytes content).toText = .ok text ↔ content = encode text) ∧
      (∀ text, (bytes content).toText = .ok text → (bytes content).toTextLossy = text) ∧
      (∀ fault, (bytes content).toText = .error fault ↔ Explains content fault) ∧
      (∀ index, (bytes content).toText = .error (.incomplete index) →
        (Failure.decode (.incomplete index)).message =
            "Invalid UTF-8 in output: " ++ s!"incomplete utf-8 byte sequence from index {index}" ∧
          ∃ front, content.take index = encode front ∧
            (bytes content).toTextLossy = front ++ replacement) ∧
      (∀ length index, (bytes content).toText = .error (.invalid length index) →
        (Failure.decode (.invalid length index)).message =
            "Invalid UTF-8 in output: " ++
              s!"invalid utf-8 sequence of {length} bytes from index {index}" ∧
          ∃ front, content.take index = encode front ∧
            (bytes content).toTextLossy = front ++
              (replacement ++ (bytes (content.drop (index + length))).toTextLossy)) ∧
      (∃ parts, AreParts content parts ∧
        (bytes content).toTextLossy.toList = ['\uFFFD'].intercalate parts ∧
        ((bytes content).toTextLossy.toList.count '\uFFFD' = parts.flatten.count '\uFFFD' ↔
          ∃ text, (bytes content).toText = .ok text)) ∧
      (bytes (text (bytes content).toTextLossy).toBytes).toText = .ok (bytes content).toTextLossy ∧
      (bytes (text (bytes content).toTextLossy).toBytes).toTextLossy =
        (bytes content).toTextLossy := by
  refine ⟨fun text => Utf8.decode_eq_ok_iff, fun text => Utf8.decodeLossy_of_ok,
    fun fault => Utf8.decode_eq_error_iff,
    fun index h => ⟨message_decode _, Utf8.decodeLossy_of_incomplete h⟩,
    fun length index h => ⟨message_decode _, Utf8.decodeLossy_of_invalid h⟩, ?_,
    Utf8.decode_encode _, Utf8.decodeLossy_of_ok (Utf8.decode_encode _)⟩
  obtain ⟨parts, hparts⟩ := Utf8.exists_areParts content
  have hlossy : (bytes content).toTextLossy.toList = ['\uFFFD'].intercalate parts :=
    hparts.toList_decodeLossy
  refine ⟨parts, hparts, hlossy, ?_⟩
  -- one replacement stands between two neighbours, so there is none if there is one part
  have hcount := Utf8.count_intercalate '\uFFFD' hparts.ne_nil
  have hone := hparts.length_eq_one_iff
  rw [hlossy]
  show _ ↔ ∃ text, Utf8.decode content = .ok text
  rw [← hone]
  omega

/-- Two bytes of a character that a letter cuts short, and two of another where the bytes end. -/
theorem toText_toTextLossy_torn :
    (bytes [0x61, 0xE2, 0x82, 0x62, 0xF0, 0x9F]).toText = .error (.invalid 2 1) ∧
      (bytes [0x62, 0xF0, 0x9F]).toText = .error (.incomplete 1) ∧
      Explains [0x61, 0xE2, 0x82, 0x62, 0xF0, 0x9F] (.invalid 2 1) ∧
      ∃ front behind, encode front = [0x61] ∧ encode behind = [0x62] ∧
        (bytes [0x61, 0xE2, 0x82, 0x62, 0xF0, 0x9F]).toTextLossy =
          front ++ (replacement ++ (behind ++ replacement)) := by
  have hinvalid : (bytes [0x61, 0xE2, 0x82, 0x62, 0xF0, 0x9F]).toText = .error (.invalid 2 1) := rfl
  have hincomplete : (bytes [0x62, 0xF0, 0x9F]).toText = .error (.incomplete 1) := rfl
  obtain ⟨-, -, hfault, -, hlossy, -⟩ :=
    toText_toTextLossy [0x61, 0xE2, 0x82, 0x62, 0xF0, 0x9F]
  obtain ⟨-, -, -, hbehind, -, -⟩ := toText_toTextLossy [0x62, 0xF0, 0x9F]
  obtain ⟨-, front, hfront, htext⟩ := hlossy 2 1 hinvalid
  obtain ⟨-, behind, hrest, hend⟩ := hbehind 1 hincomplete
  refine ⟨hinvalid, hincomplete, (hfault _).1 hinvalid, front, behind, hfront.symm, hrest.symm, ?_⟩
  rw [htext, ← hend]
  rfl

end Payload

end Workbench
