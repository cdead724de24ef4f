/-
The order of texts by their bytes.

Of two characters the one with the smaller code has the smaller bytes: a shorter form has a smaller
leading byte, and among forms of one length the bytes are the digits of the code to the base 64, the
highest first.  No character's bytes are the beginning of another's, so the first characters that
differ decide between two texts, whatever follows them.
-/
import Workbench.Proofs.Utf8

namespace Workbench.Utf8

/-- Digits are compared from the highest down. -/
theorem ofNat_cons_lt {m n : Nat} {s t : List UInt8} (hn : n < 256) (hle : m ≤ n)
    (htail : m = n → s < t) : UInt8.ofNat m :: s < UInt8.ofNat n :: t := by
  rw [List.cons_lt_cons_iff]
  by_cases heq : m = n
  · exact Or.inr ⟨by rw [heq], htail heq⟩
  · refine Or.inl (UInt8.lt_iff_toNat_lt.2 ?_)
    rw [toNat_ofNat_of_lt hn, toNat_ofNat_of_lt (Nat.lt_of_le_of_lt hle hn)]
    omega

/-- **A smaller character has smaller bytes, whatever follows.** -/
theorem encodeChar_append_lt {c d : Char} (h : c < d) (s t : List UInt8) :
    String.utf8EncodeChar c ++ s < String.utf8EncodeChar d ++ t := by
  have hlt : c.toNat < d.toNat := h
  have hd : d.toNat < 0xD800 ∨ (0xDFFF < d.toNat ∧ d.toNat < 0x110000) := d.valid
  unfold String.utf8EncodeChar
  simp only [show c.val.toNat = c.toNat from rfl, show d.val.toNat = d.toNat from rfl]
  generalize c.toNat = m at hlt
  generalize d.toNat = n at hlt hd
  -- the lengths of the two forms
  repeat' split
  -- of different lengths the first byte decides, of one length the first digit that differs
  all_goals simp only [List.cons_append, List.nil_append]
  all_goals repeat' refine ofNat_cons_lt (by omega) (by omega) fun _ => ?_
  all_goals omega

/-- **The bytes of texts are ordered as their characters are.** -/
theorem encode_lt_encode {a b : List Char} (h : a < b) :
    encode (String.ofList a) < encode (String.ofList b) := by
  rw [encode, encode, String.toList_ofList, String.toList_ofList]
  induction h with
  | @nil c b =>
      have hne : (c :: b).flatMap String.utf8EncodeChar ≠ [] := by
        simp [String.utf8EncodeChar_ne_nil]
      obtain ⟨byte, bytes, hbytes⟩ := List.exists_cons_of_ne_nil hne
      rw [hbytes]
      exact List.nil_lt_cons byte bytes
  | @cons c a b hlt ih =>
      rw [List.flatMap_cons, List.flatMap_cons]
      exact List.append_left_lt ih
  | @rel c a d b hlt =>
      rw [List.flatMap_cons, List.flatMap_cons]
      exact encodeChar_append_lt hlt _ _

end Workbench.Utf8
