/-
Nothing but text is decoded.

A piece that is a character was read from one leading byte and from as many tails as it announces.
The bounds on the byte behind the leading one keep the code of the character away from those that a
shorter form could hold, from the surrogates and from what lies above 0x10FFFF; so encoding the
character writes the same bytes again.  Bytes that are decoded are therefore the bytes of the text
that they are decoded to, and of no other.
-/
import Workbench.Proofs.Utf8

namespace Workbench.Utf8

variable {b : UInt8} {bytes : List UInt8} {c : Char} {ps : List Piece} {p : Pending}

/-! ### One character -/

theorem toNat_ofNat_of_valid {n : Nat} (h : n < 0xD800 ∨ 0xDFFF < n ∧ n < 0x110000) :
    (Char.ofNat n).toNat = n := by
  have hvalid : n.isValidChar := h
  rw [Char.ofNat, dif_pos hvalid]
  rfl

theorem ofNat_eq_of_toNat {n : Nat} (h : n = b.toNat) : UInt8.ofNat n = b := by
  rw [h, UInt8.ofNat_toNat]

theorem tailByte_eq {n : Nat} (hlow : 0x80 ≤ b.toNat) (hhigh : b.toNat ≤ 0xBF)
    (h : n % 64 = b.toNat - 0x80) : tailByte n = b :=
  ofNat_eq_of_toNat (by omega)

/-- The byte behind a character under way is within its bounds, and completes it or is one more. -/
theorem exists_of_piecesFrom_some (h : piecesFrom (some p) bytes = .char c :: ps) :
    ∃ b rest, bytes = b :: rest ∧ p.low.toNat ≤ b.toNat ∧ b.toNat ≤ p.high.toNat ∧
      (p.owed = 1 → c = Char.ofNat (p.bitsWith b) ∧ ps = piecesFrom none rest) ∧
      (p.owed ≠ 1 → piecesFrom (some (p.push b)) rest = .char c :: ps) := by
  cases bytes with
  | nil => cases h
  | cons b rest =>
      by_cases haccepts : p.accepts b = true
      · obtain ⟨hlow, hhigh⟩ := within_iff.1 haccepts
        refine ⟨b, rest, rfl, hlow, hhigh, fun howed => ?_, fun howed => ?_⟩
        · rw [piecesFrom_last haccepts howed] at h
          obtain ⟨hchar, hrest⟩ := List.cons.inj h
          exact ⟨(Piece.char.inj hchar).symm, hrest.symm⟩
        · rw [← piecesFrom_push haccepts howed]
          exact h
      · rw [piecesFrom, if_neg haccepts] at h
        cases (List.cons.inj h).1

/-- What a leading byte says about the character under way. -/
structure Announces (b : UInt8) (p : Pending) : Prop where
  leads : 0xC2 ≤ b.toNat ∧ b.toNat ≤ 0xF4
  two : b.toNat ≤ 0xDF → p.owed = 1 ∧ p.bits = b.toNat - 0xC0
  three : 0xE0 ≤ b.toNat ∧ b.toNat ≤ 0xEF → p.owed = 2 ∧ p.bits = b.toNat - 0xE0
  four : 0xF0 ≤ b.toNat → p.owed = 3 ∧ p.bits = b.toNat - 0xF0
  /-- The next byte is a tail. -/
  tail : 0x80 ≤ p.low.toNat ∧ p.high.toNat ≤ 0xBF
  /-- There is no shorter form. -/
  shortest : (b.toNat = 0xE0 → 0xA0 ≤ p.low.toNat) ∧ (b.toNat = 0xF0 → 0x90 ≤ p.low.toNat)
  /-- The code is no surrogate and not above the last one. -/
  valid : (b.toNat = 0xED → p.high.toNat ≤ 0x9F) ∧ (b.toNat = 0xF4 → p.high.toNat ≤ 0x8F)

theorem announces_of_lead (h : lead b = some p) : Announces b p := by
  unfold lead at h
  simp only [within_iff, beq_iff, UInt8.reduceToNat] at h
  -- one case for each kind of leading byte
  repeat' split at h
  all_goals cases h
  all_goals refine ⟨by omega, ?_, ?_, ?_, ?_, ?_, ?_⟩ <;> simp <;> omega

section Encode

variable {first second third fourth : UInt8} {n : Nat}

/-- A byte that follows a leading one. -/
def IsTail (b : UInt8) : Prop :=
  0x80 ≤ b.toNat ∧ b.toNat ≤ 0xBF

theorem encodeChar_ofNat_two (hfirst : 0xC2 ≤ first.toNat ∧ first.toNat ≤ 0xDF)
    (hsecond : IsTail second) (hn : n = (first.toNat - 0xC0) * 64 + (second.toNat - 0x80)) :
    String.utf8EncodeChar (Char.ofNat n) = [first, second] := by
  obtain ⟨hlow, hhigh⟩ := hsecond
  have hcode := toNat_ofNat_of_valid (n := n) (by omega)
  rw [encodeChar_two (by omega) (by omega), ofNat_eq_of_toNat (b := first) (by omega),
    tailByte_eq hlow hhigh (by omega)]

theorem encodeChar_ofNat_three (hfirst : 0xE0 ≤ first.toNat ∧ first.toNat ≤ 0xEF)
    (hsecond : IsTail second) (hthird : IsTail third)
    (hshortest : first.toNat = 0xE0 → 0xA0 ≤ second.toNat)
    (hvalid : first.toNat = 0xED → second.toNat ≤ 0x9F)
    (hn : n = ((first.toNat - 0xE0) * 64 + (second.toNat - 0x80)) * 64 + (third.toNat - 0x80)) :
    String.utf8EncodeChar (Char.ofNat n) = [first, second, third] := by
  obtain ⟨hlow, hhigh⟩ := hsecond
  obtain ⟨hlowThird, hhighThird⟩ := hthird
  have hcode := toNat_ofNat_of_valid (n := n) (by omega)
  rw [encodeChar_three (by omega) (by omega), ofNat_eq_of_toNat (b := first) (by omega),
    tailByte_eq hlow hhigh (by omega), tailByte_eq hlowThird hhighThird (by omega)]

theorem encodeChar_ofNat_four (hfirst : 0xF0 ≤ first.toNat ∧ first.toNat ≤ 0xF4)
    (hsecond : IsTail second) (hthird : IsTail third) (hfourth : IsTail fourth)
    (hshortest : first.toNat = 0xF0 → 0x90 ≤ second.toNat)
    (hvalid : first.toNat = 0xF4 → second.toNat ≤ 0x8F)
    (hn : n = (((first.toNat - 0xF0) * 64 + (second.toNat - 0x80)) * 64 +
      (third.toNat - 0x80)) * 64 + (fourth.toNat - 0x80)) :
    String.utf8EncodeChar (Char.ofNat n) = [first, second, third, fourth] := by
  obtain ⟨hlow, hhigh⟩ := hsecond
  obtain ⟨hlowThird, hhighThird⟩ := hthird
  obtain ⟨hlowFourth, hhighFourth⟩ := hfourth
  have hcode := toNat_ofNat_of_valid (n := n) (by omega)
  rw [encodeChar_four (by omega), ofNat_eq_of_toNat (b := first) (by omega),
    tailByte_eq hlow hhigh (by omega), tailByte_eq hlowThird hhighThird (by omega),
    tailByte_eq hlowFourth hhighFourth (by omega)]

end Encode

theorem bitsWith_eq {n : Nat} (hbits : p.bits = n) (b : UInt8) :
    p.bitsWith b = n * 64 + (b.toNat - 0x80) :=
  congrArg (· * 64 + (b.toNat - 0x80)) hbits

/-- The bytes behind a leading byte make the code of the character, six bits each. -/
theorem exists_of_piecesFrom_lead (hannounces : Announces b p)
    (h : piecesFrom (some p) bytes = .char c :: ps) :
    ∃ rest, b :: bytes = String.utf8EncodeChar c ++ rest ∧ ps = piecesFrom none rest := by
  obtain ⟨hleads, htwo, hthree, hfour, htail, hshortest, hvalid⟩ := hannounces
  obtain ⟨second, rest, rfl, hlow, hhigh, hlast, hmore⟩ := exists_of_piecesFrom_some h
  have hsecond : IsTail second := ⟨by omega, by omega⟩
  have hpush : (p.push second).bits = p.bitsWith second := rfl
  by_cases hb : b.toNat ≤ 0xDF
  · obtain ⟨howed, hbits⟩ := htwo hb
    obtain ⟨hchar, hrest⟩ := hlast howed
    have hcode := bitsWith_eq hbits second
    refine ⟨rest, ?_, hrest⟩
    rw [hchar, encodeChar_ofNat_two ⟨hleads.1, hb⟩ hsecond hcode]
    rfl
  by_cases hbthree : b.toNat ≤ 0xEF
  · obtain ⟨howed, hbits⟩ := hthree ⟨by omega, hbthree⟩
    obtain ⟨third, rest, rfl, hlowThird, hhighThird, hlast, -⟩ :=
      exists_of_piecesFrom_some (hmore (by omega))
    obtain ⟨hchar, hrest⟩ := hlast (by simp [Pending.push, howed])
    have hcode := bitsWith_eq (hpush.trans (bitsWith_eq hbits second)) third
    refine ⟨rest, ?_, hrest⟩
    rw [hchar, encodeChar_ofNat_three ⟨by omega, hbthree⟩ hsecond ⟨hlowThird, hhighThird⟩
      (fun hb => Nat.le_trans (hshortest.1 hb) hlow)
      (fun hb => Nat.le_trans hhigh (hvalid.1 hb)) hcode]
    rfl
  · obtain ⟨howed, hbits⟩ := hfour (by omega)
    obtain ⟨third, rest, rfl, hlowThird, hhighThird, -, hmore⟩ :=
      exists_of_piecesFrom_some (hmore (by omega))
    obtain ⟨fourth, rest, rfl, hlowFourth, hhighFourth, hlast, -⟩ :=
      exists_of_piecesFrom_some (hmore (by simp [Pending.push, howed]))
    obtain ⟨hchar, hrest⟩ := hlast (by simp [Pending.push, howed])
    have hpushThird : ((p.push second).push third).bits = (p.push second).bitsWith third := rfl
    have hcode := bitsWith_eq
      (hpushThird.trans (bitsWith_eq (hpush.trans (bitsWith_eq hbits second)) third)) fourth
    refine ⟨rest, ?_, hrest⟩
    rw [hchar, encodeChar_ofNat_four ⟨Nat.not_le.1 hbthree, hleads.2⟩ hsecond
      ⟨hlowThird, hhighThird⟩ ⟨hlowFourth, hhighFourth⟩
      (fun hb => Nat.le_trans (hshortest.2 hb) hlow)
      (fun hb => Nat.le_trans hhigh (hvalid.2 hb)) hcode]
    rfl

/-- **A piece that is a character covers the bytes of that character.** -/
theorem exists_of_piecesFrom_char (h : piecesFrom none bytes = .char c :: ps) :
    ∃ rest, bytes = String.utf8EncodeChar c ++ rest ∧ ps = piecesFrom none rest := by
  cases bytes with
  | nil => cases h
  | cons b bytes =>
      by_cases hascii : b.toNat < 0x80
      · rw [piecesFrom_ascii hascii] at h
        obtain ⟨hchar, hrest⟩ := List.cons.inj h
        obtain rfl := Piece.char.inj hchar
        have hcode := toNat_ofNat_of_valid (n := b.toNat) (by omega)
        refine ⟨bytes, ?_, hrest.symm⟩
        rw [encodeChar_one (by omega), hcode, UInt8.ofNat_toNat]
        rfl
      · have hnot : ¬ b < 0x80 := by rwa [UInt8.lt_iff_toNat_lt]
        cases hlead : lead b with
        | none =>
            rw [piecesFrom, if_neg hnot, hlead] at h
            cases (List.cons.inj h).1
        | some p =>
            rw [piecesFrom_lead (Nat.not_lt.1 hascii) hlead] at h
            exact exists_of_piecesFrom_lead (announces_of_lead hlead) h

/-! ### Whole texts -/

theorem piecesFrom_some_ne_nil (bytes : List UInt8) (p : Pending) :
    piecesFrom (some p) bytes ≠ [] := by
  induction bytes generalizing p with
  | nil => exact List.cons_ne_nil _ _
  | cons b bytes ih =>
      rw [piecesFrom]
      split
      · split
        · exact List.cons_ne_nil _ _
        · exact ih _
      · exact List.cons_ne_nil _ _

theorem piecesFrom_eq_nil (h : piecesFrom none bytes = []) : bytes = [] := by
  cases bytes with
  | nil => rfl
  | cons b bytes =>
      rw [piecesFrom] at h
      split at h
      · cases h
      · split at h
        · exact absurd h (piecesFrom_some_ne_nil _ _)
        · cases h

theorem eq_encode_of_pieces {cs : List Char} (h : piecesFrom none bytes = cs.map .char) :
    bytes = cs.flatMap String.utf8EncodeChar := by
  induction cs generalizing bytes with
  | nil => exact piecesFrom_eq_nil h
  | cons c cs ih =>
      obtain ⟨rest, rfl, hrest⟩ := exists_of_piecesFrom_char h
      rw [List.flatMap_cons, ih hrest.symm]

theorem eq_of_decodePieces {index : Nat} {cs : List Char} (h : decodePieces index ps = .ok cs) :
    ps = cs.map .char := by
  induction ps generalizing index cs with
  | nil =>
      cases h
      rfl
  | cons piece ps ih =>
      cases piece with
      | char c =>
          rw [decodePieces] at h
          cases hmore : decodePieces (index + c.utf8Size) ps with
          | error fault => rw [hmore] at h; cases h
          | ok more =>
              rw [hmore] at h
              cases h
              rw [ih hmore, List.map_cons]
      | broken n => cases h
      | cut n => cases h

/-- **Bytes are decoded exactly to the text that they encode.** -/
theorem decode_eq_ok_iff {text : String} : decode bytes = .ok text ↔ bytes = encode text := by
  constructor
  · intro h
    rw [decode] at h
    cases hpieces : decodePieces 0 (pieces bytes) with
    | error fault => rw [hpieces] at h; cases h
    | ok cs =>
        rw [hpieces] at h
        cases h
        rw [encode, String.toList_ofList]
        exact eq_encode_of_pieces (eq_of_decodePieces hpieces)
  · rintro rfl
    exact decode_encode text

/-- Different texts have different bytes. -/
theorem encode_inj {text other : String} (h : encode text = encode other) : text = other :=
  Except.ok.inj ((decode_encode text).symm.trans (decode_eq_ok_iff.2 h))

/-- Bytes that are the bytes of some text. -/
def IsText (bytes : List UInt8) : Prop :=
  ∃ text, bytes = encode text

end Workbench.Utf8
