/-
Text survives being encoded and decoded.

The decoder looks at one byte at a time and remembers the character under way.  What it sees of an
encoded character is one leading byte and the tails that this byte announces, so a character is
decoded in as many steps as it has bytes, and each step adds six bits to those collected.  The
bounds on the second byte are met because a character has a code that no shorter form could hold,
that is no surrogate, and that is at most 0x10FFFF.
-/
import Workbench.Text.Utf8

namespace Workbench.Utf8

/-! ### One byte -/

/-- A byte that follows a leading one, with the six bits of `n` it carries. -/
def tailByte (n : Nat) : UInt8 :=
  UInt8.ofNat (n % 64 + 128)

theorem toNat_ofNat_of_lt {n : Nat} (h : n < 256) : (UInt8.ofNat n).toNat = n := by
  rw [UInt8.toNat_ofNat']
  omega

theorem toNat_tailByte (n : Nat) : (tailByte n).toNat = n % 64 + 128 :=
  toNat_ofNat_of_lt (by omega)

theorem within_iff {low high b : UInt8} :
    (decide (low ≤ b) && decide (b ≤ high)) = true
      ↔ low.toNat ≤ b.toNat ∧ b.toNat ≤ high.toNat := by
  rw [Bool.and_eq_true, decide_eq_true_iff, decide_eq_true_iff, UInt8.le_iff_toNat_le,
    UInt8.le_iff_toNat_le]

theorem beq_iff {b k : UInt8} : (b == k) = true ↔ b.toNat = k.toNat := by
  rw [beq_iff_eq, UInt8.toNat_inj]

/-- A tail is accepted in the bounds that are free. -/
theorem accepts_tailByte (read owed bits n : Nat) :
    Pending.accepts ⟨read, owed, 0x80, 0xBF, bits⟩ (tailByte n) = true := by
  refine within_iff.2 ?_
  rw [toNat_tailByte]
  show 128 ≤ n % 64 + 128 ∧ n % 64 + 128 ≤ 191
  omega

theorem bitsWith_tailByte (p : Pending) (n : Nat) :
    p.bitsWith (tailByte n) = p.bits * 64 + n % 64 := by
  have hbits : (tailByte n).toNat - 0x80 = n % 64 := by
    rw [toNat_tailByte]
    exact Nat.add_sub_cancel _ _
  exact congrArg (p.bits * 64 + ·) hbits

theorem piecesFrom_ascii {b : UInt8} (h : b.toNat < 0x80) (bs : List UInt8) :
    piecesFrom none (b :: bs) = .char (Char.ofNat b.toNat) :: piecesFrom none bs := by
  rw [piecesFrom, if_pos (UInt8.lt_iff_toNat_lt.2 h)]

theorem piecesFrom_lead {b : UInt8} {p : Pending} (h : 0x80 ≤ b.toNat) (hlead : lead b = some p)
    (bs : List UInt8) : piecesFrom none (b :: bs) = piecesFrom (some p) bs := by
  have hb : ¬ b < 0x80 := by
    rw [UInt8.lt_iff_toNat_lt]
    exact Nat.not_lt.2 h
  rw [piecesFrom, if_neg hb, hlead]

/-- The last byte that a character owes completes it. -/
theorem piecesFrom_last {p : Pending} {b : UInt8} (haccepts : p.accepts b = true)
    (howed : p.owed = 1) (bs : List UInt8) :
    piecesFrom (some p) (b :: bs) = .char (Char.ofNat (p.bitsWith b)) :: piecesFrom none bs := by
  rw [piecesFrom, if_pos haccepts, if_pos (by simp [howed])]

theorem piecesFrom_push {p : Pending} {b : UInt8} (haccepts : p.accepts b = true)
    (howed : p.owed ≠ 1) (bs : List UInt8) :
    piecesFrom (some p) (b :: bs) = piecesFrom (some (p.push b)) bs := by
  rw [piecesFrom, if_pos haccepts, if_neg (by simp [howed])]

/-! ### Leading bytes -/

theorem lead_two {b : UInt8} (hlow : 0xC2 ≤ b.toNat) (hhigh : b.toNat ≤ 0xDF) :
    lead b = some ⟨1, 1, 0x80, 0xBF, b.toNat - 0xC0⟩ := by
  have hwithin : (decide (0xC2 ≤ b) && decide (b ≤ 0xDF)) = true := within_iff.2 ⟨hlow, hhigh⟩
  rw [lead, if_pos hwithin]

/-- Of three bytes the second is bounded where a shorter form or a surrogate would begin. -/
theorem lead_three (b second : UInt8) (hlow : 0xE0 ≤ b.toNat) (hhigh : b.toNat ≤ 0xEF)
    (htail : 0x80 ≤ second.toNat ∧ second.toNat ≤ 0xBF)
    (hshort : b.toNat = 0xE0 → 0xA0 ≤ second.toNat)
    (hsurrogate : b.toNat = 0xED → second.toNat ≤ 0x9F) :
    ∃ low high, lead b = some ⟨1, 2, low, high, b.toNat - 0xE0⟩ ∧
      low.toNat ≤ second.toNat ∧ second.toNat ≤ high.toNat := by
  have htwo : ¬ (decide (0xC2 ≤ b) && decide (b ≤ 0xDF)) = true := by
    rw [within_iff]
    exact fun h => absurd h.2 (Nat.not_le.2 (Nat.lt_of_lt_of_le (by decide) hlow))
  rw [lead, if_neg htwo]
  by_cases hfirst : b.toNat = 0xE0
  · rw [if_pos (beq_iff.2 hfirst), hfirst]
    exact ⟨_, _, rfl, hshort hfirst, htail.2⟩
  · rw [if_neg fun h => hfirst (beq_iff.1 h)]
    by_cases hthirteen : b.toNat = 0xED
    · rw [if_pos (beq_iff.2 hthirteen), hthirteen]
      exact ⟨_, _, rfl, htail.1, hsurrogate hthirteen⟩
    · have hwithin : (decide (0xE1 ≤ b) && decide (b ≤ 0xEF)) = true :=
        within_iff.2 ⟨Nat.lt_of_le_of_ne hlow (Ne.symm hfirst), hhigh⟩
      rw [if_neg fun h => hthirteen (beq_iff.1 h), if_pos hwithin]
      exact ⟨_, _, rfl, htail.1, htail.2⟩

/-- Of four bytes the second is bounded where a shorter form would begin and where the codes
end. -/
theorem lead_four (b second : UInt8) (hlow : 0xF0 ≤ b.toNat) (hhigh : b.toNat ≤ 0xF4)
    (htail : 0x80 ≤ second.toNat ∧ second.toNat ≤ 0xBF)
    (hshort : b.toNat = 0xF0 → 0x90 ≤ second.toNat)
    (hlast : b.toNat = 0xF4 → second.toNat ≤ 0x8F) :
    ∃ low high, lead b = some ⟨1, 3, low, high, b.toNat - 0xF0⟩ ∧
      low.toNat ≤ second.toNat ∧ second.toNat ≤ high.toNat := by
  have hwithin : ∀ {low high : UInt8}, high.toNat < 0xF0 →
      ¬ (decide (low ≤ b) && decide (b ≤ high)) = true := by
    intro low high hlt h
    exact absurd (within_iff.1 h).2 (Nat.not_le.2 (Nat.lt_of_lt_of_le hlt hlow))
  have hbeq : ∀ {k : UInt8}, k.toNat < 0xF0 → ¬ (b == k) = true := by
    intro k hlt h
    exact absurd (beq_iff.1 h) (Nat.ne_of_gt (Nat.lt_of_lt_of_le hlt hlow))
  rw [lead, if_neg (hwithin (by decide)), if_neg (hbeq (by decide)), if_neg (hbeq (by decide)),
    if_neg (hwithin (by decide))]
  by_cases hfirst : b.toNat = 0xF0
  · rw [if_pos (beq_iff.2 hfirst), hfirst]
    exact ⟨_, _, rfl, hshort hfirst, htail.2⟩
  · rw [if_neg fun h => hfirst (beq_iff.1 h)]
    by_cases hfour : b.toNat = 0xF4
    · have hbetween : ¬ (decide (0xF1 ≤ b) && decide (b ≤ 0xF3)) = true := by
        rw [within_iff, hfour]
        decide
      rw [if_neg hbetween, if_pos (beq_iff.2 hfour), hfour]
      exact ⟨_, _, rfl, htail.1, hlast hfour⟩
    · have hbetween : (decide (0xF1 ≤ b) && decide (b ≤ 0xF3)) = true :=
        within_iff.2 ⟨Nat.lt_of_le_of_ne hlow (Ne.symm hfirst),
          Nat.le_of_lt_succ (Nat.lt_of_le_of_ne hhigh hfour)⟩
      rw [if_pos hbetween]
      exact ⟨_, _, rfl, htail.1, htail.2⟩

/-! ### One character -/

section Character

variable {c : Char}

theorem encodeChar_one (h : c.toNat ≤ 0x7F) :
    String.utf8EncodeChar c = [UInt8.ofNat c.toNat] := by
  have hone : c.val.toNat ≤ 127 := h
  rw [String.utf8EncodeChar, if_pos hone]
  rfl

theorem encodeChar_two (hlow : 0x80 ≤ c.toNat) (hhigh : c.toNat ≤ 0x7FF) :
    String.utf8EncodeChar c = [UInt8.ofNat (c.toNat / 64 % 32 + 192), tailByte c.toNat] := by
  have hone : ¬ c.val.toNat ≤ 127 := Nat.not_le.2 hlow
  have htwo : c.val.toNat ≤ 2047 := hhigh
  rw [String.utf8EncodeChar, if_neg hone, if_pos htwo]
  rfl

theorem encodeChar_three (hlow : 0x800 ≤ c.toNat) (hhigh : c.toNat ≤ 0xFFFF) :
    String.utf8EncodeChar c =
      [UInt8.ofNat (c.toNat / 4096 % 16 + 224), tailByte (c.toNat / 64), tailByte c.toNat] := by
  have hone : ¬ c.val.toNat ≤ 127 := Nat.not_le.2 (Nat.lt_of_lt_of_le (by decide) hlow)
  have htwo : ¬ c.val.toNat ≤ 2047 := Nat.not_le.2 hlow
  have hthree : c.val.toNat ≤ 65535 := hhigh
  rw [String.utf8EncodeChar, if_neg hone, if_neg htwo, if_pos hthree]
  rfl

theorem encodeChar_four (hlow : 0x10000 ≤ c.toNat) :
    String.utf8EncodeChar c =
      [UInt8.ofNat (c.toNat / 262144 % 8 + 240), tailByte (c.toNat / 4096),
        tailByte (c.toNat / 64), tailByte c.toNat] := by
  have hone : ¬ c.val.toNat ≤ 127 := Nat.not_le.2 (Nat.lt_of_lt_of_le (by decide) hlow)
  have htwo : ¬ c.val.toNat ≤ 2047 := Nat.not_le.2 (Nat.lt_of_lt_of_le (by decide) hlow)
  have hthree : ¬ c.val.toNat ≤ 65535 := Nat.not_le.2 hlow
  rw [String.utf8EncodeChar, if_neg hone, if_neg htwo, if_neg hthree]
  rfl

theorem char_ofNat_eq {n : Nat} (c : Char) (h : n = c.toNat) :
    Piece.char (Char.ofNat n) = .char c := by
  rw [h, Char.ofNat_toNat]

theorem piecesFrom_encodeChar_one (h : c.toNat ≤ 0x7F) (rest : List UInt8) :
    piecesFrom none (String.utf8EncodeChar c ++ rest) = .char c :: piecesFrom none rest := by
  have hbyte : (UInt8.ofNat c.toNat).toNat = c.toNat := toNat_ofNat_of_lt (by omega)
  rw [encodeChar_one h, List.singleton_append, piecesFrom_ascii (by omega), char_ofNat_eq c hbyte]

theorem piecesFrom_encodeChar_two (hlow : 0x80 ≤ c.toNat) (hhigh : c.toNat ≤ 0x7FF)
    (rest : List UInt8) :
    piecesFrom none (String.utf8EncodeChar c ++ rest) = .char c :: piecesFrom none rest := by
  have hfirst : (UInt8.ofNat (c.toNat / 64 % 32 + 192)).toNat = c.toNat / 64 % 32 + 192 :=
    toNat_ofNat_of_lt (by omega)
  rw [encodeChar_two hlow hhigh, List.cons_append, List.singleton_append,
    piecesFrom_lead (by omega) (lead_two (by omega) (by omega)),
    piecesFrom_last (accepts_tailByte _ _ _ _) rfl, bitsWith_tailByte,
    char_ofNat_eq c (by simp only [hfirst]; omega)]

theorem piecesFrom_encodeChar_three (hlow : 0x800 ≤ c.toNat) (hhigh : c.toNat ≤ 0xFFFF)
    (rest : List UInt8) :
    piecesFrom none (String.utf8EncodeChar c ++ rest) = .char c :: piecesFrom none rest := by
  have hvalid : c.toNat < 0xD800 ∨ (0xDFFF < c.toNat ∧ c.toNat < 0x110000) := c.valid
  have hfirst : (UInt8.ofNat (c.toNat / 4096 % 16 + 224)).toNat = c.toNat / 4096 % 16 + 224 :=
    toNat_ofNat_of_lt (by omega)
  have hsecond := toNat_tailByte (c.toNat / 64)
  obtain ⟨low, high, hlead, hbounds⟩ := lead_three
    (UInt8.ofNat (c.toNat / 4096 % 16 + 224)) (tailByte (c.toNat / 64))
    (by omega) (by omega) (by omega) (by omega) (by omega)
  rw [encodeChar_three hlow hhigh, List.cons_append, List.cons_append, List.singleton_append,
    piecesFrom_lead (by omega) hlead, piecesFrom_push (within_iff.2 hbounds) (by simp)]
  show piecesFrom (some ⟨2, 1, 0x80, 0xBF, _⟩) _ = _
  rw [piecesFrom_last (accepts_tailByte _ _ _ _) rfl, bitsWith_tailByte, bitsWith_tailByte,
    char_ofNat_eq c (by simp only [hfirst]; omega)]

theorem piecesFrom_encodeChar_four (hlow : 0x10000 ≤ c.toNat) (rest : List UInt8) :
    piecesFrom none (String.utf8EncodeChar c ++ rest) = .char c :: piecesFrom none rest := by
  have hvalid : c.toNat < 0xD800 ∨ (0xDFFF < c.toNat ∧ c.toNat < 0x110000) := c.valid
  have hfirst : (UInt8.ofNat (c.toNat / 262144 % 8 + 240)).toNat = c.toNat / 262144 % 8 + 240 :=
    toNat_ofNat_of_lt (by omega)
  have hsecond := toNat_tailByte (c.toNat / 4096)
  obtain ⟨low, high, hlead, hbounds⟩ := lead_four
    (UInt8.ofNat (c.toNat / 262144 % 8 + 240)) (tailByte (c.toNat / 4096))
    (by omega) (by omega) (by omega) (by omega) (by omega)
  rw [encodeChar_four hlow, List.cons_append, List.cons_append, List.cons_append,
    List.singleton_append, piecesFrom_lead (by omega) hlead,
    piecesFrom_push (within_iff.2 hbounds) (by simp)]
  show piecesFrom (some ⟨2, 2, 0x80, 0xBF, _⟩) _ = _
  rw [piecesFrom_push (accepts_tailByte _ _ _ _) (by simp)]
  show piecesFrom (some ⟨3, 1, 0x80, 0xBF, _⟩) _ = _
  rw [piecesFrom_last (accepts_tailByte _ _ _ _) rfl, bitsWith_tailByte, bitsWith_tailByte,
    bitsWith_tailByte, char_ofNat_eq c (by simp only [hfirst]; omega)]

/-- **The bytes of a character are one piece, whatever follows.** -/
theorem piecesFrom_encodeChar (c : Char) (rest : List UInt8) :
    piecesFrom none (String.utf8EncodeChar c ++ rest) = .char c :: piecesFrom none rest := by
  by_cases hone : c.toNat ≤ 0x7F
  · exact piecesFrom_encodeChar_one hone rest
  by_cases htwo : c.toNat ≤ 0x7FF
  · exact piecesFrom_encodeChar_two (Nat.not_le.1 hone) htwo rest
  by_cases hthree : c.toNat ≤ 0xFFFF
  · exact piecesFrom_encodeChar_three (Nat.not_le.1 htwo) hthree rest
  · exact piecesFrom_encodeChar_four (Nat.not_le.1 hthree) rest

end Character

/-! ### Whole texts -/

/-- The bytes of a text are cut into its characters. -/
theorem pieces_encode (text : String) : pieces (encode text) = text.toList.map .char := by
  have hlist : ∀ cs : List Char,
      piecesFrom none (cs.flatMap String.utf8EncodeChar) = cs.map .char := by
    intro cs
    induction cs with
    | nil => rfl
    | cons c cs ih => rw [List.flatMap_cons, piecesFrom_encodeChar, ih, List.map_cons]
  exact hlist text.toList

theorem decodePieces_map_char (cs : List Char) :
    ∀ index, decodePieces index (cs.map .char) = .ok cs := by
  induction cs with
  | nil =>
      intro index
      rfl
  | cons c cs ih =>
      intro index
      rw [List.map_cons, decodePieces, ih]
      rfl

/-- **A text that has been encoded is decoded again.** -/
theorem decode_encode (text : String) : decode (encode text) = .ok text := by
  rw [decode, pieces_encode, decodePieces_map_char]
  show Except.ok (String.ofList text.toList) = _
  rw [String.ofList_toList]

end Workbench.Utf8
