/-
Where bytes stop being text.

A character under way can always be completed, because each of its bounds admits a byte.  So bytes
begin some text until a byte comes that the character under way refuses, or that begins none; and
from there on they begin no text, whatever follows.  The decoder notices this at that byte and takes
nothing back: the bytes in front of the character are a text, the longest that the whole begins with,
and the fault covers the bytes of the character that have come, or the one byte that begins none.

So a fault can be told without the decoder (`Explains`), and behind the bytes that it covers the
decoder begins afresh.
-/
import Workbench.Proofs.Utf8.Exact

namespace Workbench.Utf8

variable {b : UInt8} {bytes rest bad more : List UInt8} {c : Char} {ps : List Piece} {p : Pending}
  {text front : String} {fault : Fault}

/-! ### Completing a character -/

/-- A character under way that lacks a byte, and that there is a byte for. -/
structure Pending.IsOpen (p : Pending) : Prop where
  owed : 1 ≤ p.owed
  accepts_low : p.accepts p.low = true

theorem isOpen_of_lead (h : lead b = some p) : p.IsOpen ∧ p.read = 1 := by
  unfold lead at h
  -- one case for each kind of leading byte
  repeat' split at h
  all_goals cases h
  all_goals exact ⟨⟨Nat.succ_le_succ (Nat.zero_le _), rfl⟩, rfl⟩

theorem Pending.IsOpen.push (h : p.IsOpen) (howed : p.owed ≠ 1) (b : UInt8) : (p.push b).IsOpen := by
  have hlack := h.owed
  refine ⟨?_, by simp [Pending.accepts, Pending.push]⟩
  show 1 ≤ p.owed - 1
  omega

/-- Bytes that complete the character under way. -/
def Completes (p : Pending) (bytes : List UInt8) : Prop :=
  ∃ more c, piecesFrom (some p) (bytes ++ more) = [.char c]

theorem Pending.IsOpen.completes (h : p.IsOpen) : Completes p [] := by
  obtain ⟨owed, howed⟩ : ∃ owed, p.owed = owed + 1 := ⟨p.owed - 1, by have := h.owed; omega⟩
  induction owed generalizing p with
  | zero => exact ⟨[p.low], _, piecesFrom_last h.accepts_low howed []⟩
  | succ owed ih =>
      have hmore : p.owed ≠ 1 := by omega
      obtain ⟨more, c, hpieces⟩ := ih (h.push hmore p.low) (by simp [Pending.push, howed])
      refine ⟨p.low :: more, c, ?_⟩
      rw [List.nil_append, piecesFrom_push h.accepts_low hmore]
      exact hpieces

/-- A byte that the character under way refuses is looked at afresh. -/
theorem piecesFrom_refused (h : ¬ p.accepts b = true) (bs : List UInt8) :
    piecesFrom (some p) (b :: bs) = .broken p.read :: piecesFrom none (b :: bs) := by
  conv => lhs; rw [piecesFrom, if_neg h]
  rw [piecesFrom]

/-- What becomes of a character under way. -/
inductive GoesOn (p : Pending) (bytes : List UInt8) : Prop
  | char (c : Char) (tails rest : List UInt8) (hbytes : bytes = tails ++ rest)
      (hpieces : ∀ more, piecesFrom (some p) (tails ++ more) = .char c :: piecesFrom none more)
  | broken (tails : List UInt8) (next : UInt8) (rest : List UInt8)
      (hbytes : bytes = tails ++ next :: rest) (hopen : Completes p tails)
      (hpieces : ∀ more, piecesFrom (some p) (tails ++ next :: more) =
        .broken (p.read + tails.length) :: piecesFrom none (next :: more))
  | cut (hopen : Completes p bytes)
      (hpieces : piecesFrom (some p) bytes = [.cut (p.read + bytes.length)])

theorem goesOn (h : p.IsOpen) (bytes : List UInt8) : GoesOn p bytes := by
  induction bytes generalizing p with
  | nil => exact .cut h.completes rfl
  | cons b bytes ih =>
      by_cases haccepts : p.accepts b = true
      · by_cases howed : p.owed = 1
        · exact .char _ [b] bytes rfl fun more => piecesFrom_last haccepts howed more
        · have hpush : ∀ more, piecesFrom (some p) (b :: more) = piecesFrom (some (p.push b)) more :=
            piecesFrom_push haccepts howed
          have hopen : ∀ {tails}, Completes (p.push b) tails → Completes p (b :: tails) := by
            rintro tails ⟨more, c, hpieces⟩
            exact ⟨more, c, (hpush _).trans hpieces⟩
          have hread : ∀ n, (p.push b).read + n = p.read + (n + 1) := by
            intro n
            show p.read + 1 + n = _
            omega
          cases ih (h.push howed b) with
          | char c tails rest hbytes hpieces =>
              refine .char c (b :: tails) rest (by rw [hbytes]; rfl) fun more => ?_
              rw [List.cons_append, hpush, hpieces]
          | broken tails next rest hbytes hcompletes hpieces =>
              refine .broken (b :: tails) next rest (by rw [hbytes]; rfl) (hopen hcompletes)
                fun more => ?_
              rw [List.cons_append, hpush, hpieces, hread, List.length_cons]
          | cut hcompletes hpieces =>
              refine .cut (hopen hcompletes) ?_
              rw [hpush, hpieces, hread, List.length_cons]
      · exact .broken [] b bytes rfl h.completes fun more => piecesFrom_refused haccepts more

/-! ### Bytes that begin no character -/

/-- Bytes that more bytes can make a text of. -/
def BeginsText (bytes : List UInt8) : Prop :=
  ∃ more, IsText (bytes ++ more)

theorem isText_of_pieces {cs : List Char} (h : pieces bytes = cs.map .char) : IsText bytes :=
  ⟨String.ofList cs, by rw [encode, String.toList_ofList]; exact eq_encode_of_pieces h⟩

/-- Bytes that do not begin with a character: a run that is refused, or the beginning of one. -/
inductive Fails (bytes : List UInt8) : Prop
  | broken (bad rest : List UInt8) (hbytes : bytes = bad ++ rest) (hne : bad ≠ [])
      (hbegins : bad.length = 1 ∨ BeginsText bad)
      (hpieces : ∀ more, pieces (bad ++ (rest.take 1 ++ more)) =
        .broken bad.length :: pieces (rest.take 1 ++ more))
  | cut (hne : bytes ≠ []) (hbegins : BeginsText bytes) (hpieces : pieces bytes = [.cut bytes.length])

theorem fails_of_lead (h : 0x80 ≤ b.toNat) (hlead : lead b = some p)
    (hchar : ∀ c ps, piecesFrom (some p) bytes ≠ .char c :: ps) : Fails (b :: bytes) := by
  obtain ⟨hopen, hread⟩ := isOpen_of_lead hlead
  have hfirst : ∀ more, pieces (b :: more) = piecesFrom (some p) more := piecesFrom_lead h hlead
  have hbegins : ∀ {tails}, Completes p tails → BeginsText (b :: tails) := by
    rintro tails ⟨more, c, hpieces⟩
    have hwhole : pieces (b :: (tails ++ more)) = [c].map .char := (hfirst _).trans hpieces
    exact ⟨more, isText_of_pieces hwhole⟩
  cases goesOn hopen bytes with
  | char c tails rest hbytes hpieces =>
      rw [hbytes] at hchar
      exact absurd (hpieces rest) (hchar c _)
  | broken tails next rest hbytes hcompletes hpieces =>
      refine .broken (b :: tails) (next :: rest) (by rw [hbytes]; rfl) (List.cons_ne_nil _ _)
        (.inr (hbegins hcompletes)) fun more => ?_
      rw [List.cons_append, hfirst, List.take_succ_cons, List.take_zero, List.singleton_append,
        hpieces, hread, List.length_cons, Nat.add_comm]
      rfl
  | cut hcompletes hpieces =>
      refine .cut (List.cons_ne_nil _ _) (hbegins hcompletes) ?_
      rw [hfirst, hpieces, hread, List.length_cons, Nat.add_comm]

theorem fails_of_pieces (hne : bytes ≠ []) (hchar : ∀ c ps, pieces bytes ≠ .char c :: ps) :
    Fails bytes := by
  cases bytes with
  | nil => exact absurd rfl hne
  | cons b bytes =>
      by_cases hascii : b.toNat < 0x80
      · exact absurd (piecesFrom_ascii hascii bytes) (hchar _ _)
      · cases hlead : lead b with
        | none =>
            refine .broken [b] bytes rfl (List.cons_ne_nil _ _) (.inl rfl) fun more => ?_
            have hnot : ¬ b < 0x80 := by rwa [UInt8.lt_iff_toNat_lt]
            rw [List.singleton_append, pieces, piecesFrom, if_neg hnot, hlead]
            rfl
        | some p =>
            have hfirst := piecesFrom_lead (Nat.not_lt.1 hascii) hlead bytes
            exact fails_of_lead (Nat.not_lt.1 hascii) hlead fun c ps h => hchar c ps (hfirst.trans h)

/-! ### Text in front -/

theorem encode_append (text other : String) : encode (text ++ other) = encode text ++ encode other := by
  rw [encode, String.toList_append, List.flatMap_append, encode, encode]

theorem pieces_append (text : String) (rest : List UInt8) :
    pieces (encode text ++ rest) = text.toList.map .char ++ pieces rest := by
  have hlist : ∀ cs : List Char, piecesFrom none (cs.flatMap String.utf8EncodeChar ++ rest) =
      cs.map .char ++ piecesFrom none rest := by
    intro cs
    induction cs with
    | nil => rfl
    | cons c cs ih =>
        rw [List.flatMap_cons, List.append_assoc, piecesFrom_encodeChar, ih]
        rfl
  exact hlist text.toList

/-- Behind the longest text that bytes begin with is nothing, or bytes that begin no character. -/
theorem exists_front (bytes : List UInt8) :
    ∃ front rest, bytes = encode front ++ rest ∧ (rest = [] ∨ Fails rest) := by
  have hlist : ∃ (cs : List Char) (rest : List UInt8),
      bytes = cs.flatMap String.utf8EncodeChar ++ rest ∧ (rest = [] ∨ Fails rest) := by
    generalize hps : pieces bytes = ps
    induction ps generalizing bytes with
    | nil => exact ⟨[], bytes, rfl, .inl (piecesFrom_eq_nil hps)⟩
    | cons piece ps ih =>
        have hne : bytes ≠ [] := by
          rintro rfl
          cases hps
        cases piece with
        | char c =>
            obtain ⟨rest, rfl, hrest⟩ := exists_of_piecesFrom_char hps
            obtain ⟨cs, behind, rfl, hbehind⟩ := ih rest hrest.symm
            exact ⟨c :: cs, behind, by rw [List.flatMap_cons, List.append_assoc], hbehind⟩
        | broken n => exact ⟨[], bytes, rfl, .inr (fails_of_pieces hne (by simp [hps]))⟩
        | cut n => exact ⟨[], bytes, rfl, .inr (fails_of_pieces hne (by simp [hps]))⟩
  obtain ⟨cs, rest, rfl, hrest⟩ := hlist
  exact ⟨String.ofList cs, rest, by rw [encode, String.toList_ofList], hrest⟩

theorem length_encode (text : String) : (encode text).length = byteSize text.toList := by
  rw [encode]
  induction text.toList with
  | nil => rfl
  | cons c cs ih =>
      rw [List.flatMap_cons, List.length_append, ih, String.length_utf8EncodeChar, byteSize]

/-- A piece that is no character stands behind all characters of a text in front of it. -/
theorem prefix_of_map_char {cs ds : List Char} {piece : Piece} {qs : List Piece}
    (hpiece : ∀ c, piece ≠ .char c) (h : ds.map .char ++ ps = cs.map .char ++ piece :: qs) :
    ds <+: cs := by
  induction ds generalizing cs with
  | nil => exact List.nil_prefix
  | cons d ds ih =>
      cases cs with
      | nil => exact absurd (List.cons.inj h).1.symm (hpiece d)
      | cons c cs =>
          obtain ⟨hhead, htail⟩ := List.cons.inj h
          exact List.cons_prefix_cons.2 ⟨Piece.char.inj hhead, ih htail⟩

/-! ### What a fault says -/

/-- The longest text that bytes begin with ends at an index. -/
structure IsTextEnd (bytes : List UInt8) (index : Nat) : Prop where
  le : index ≤ bytes.length
  isText : IsText (bytes.take index)
  longest : ∀ n ≤ bytes.length, IsText (bytes.take n) → n ≤ index

/-- A fault of bytes: the text in front of it is the longest, and the bytes could go on to be text,
or they cannot, from the byte on that is behind those that the fault covers. -/
def Explains (bytes : List UInt8) : Fault → Prop
  | .incomplete index => IsTextEnd bytes index ∧ ¬ IsText bytes ∧ BeginsText bytes
  | .invalid length index =>
      IsTextEnd bytes index ∧ ¬ BeginsText bytes ∧ 1 ≤ length ∧ index + length ≤ bytes.length ∧
        (length = 1 ∨ BeginsText (bytes.take (index + length))) ∧
        ¬ BeginsText (bytes.take (index + length + 1))

theorem IsText.beginsText (h : IsText bytes) : BeginsText bytes :=
  ⟨[], by rwa [List.append_nil]⟩

theorem BeginsText.of_append (h : BeginsText (bytes ++ more)) : BeginsText bytes := by
  obtain ⟨rest, hrest⟩ := h
  exact ⟨more ++ rest, by rwa [← List.append_assoc]⟩

theorem BeginsText.take (h : BeginsText bytes) (n : Nat) : BeginsText (bytes.take n) := by
  rw [← List.take_append_drop n bytes] at h
  exact h.of_append

theorem BeginsText.take_of_le {n m : Nat} (h : BeginsText (bytes.take m)) (hle : n ≤ m) :
    BeginsText (bytes.take n) := by
  have hcut := h.take n
  rwa [List.take_take, Nat.min_eq_left hle] at hcut

theorem BeginsText.encode_append (h : BeginsText bytes) (front : String) :
    BeginsText (encode front ++ bytes) := by
  obtain ⟨more, text, htext⟩ := h
  exact ⟨more, front ++ text, by rw [Utf8.encode_append, List.append_assoc, htext]⟩

theorem IsTextEnd.unique {index other : Nat} (h : IsTextEnd bytes index)
    (hother : IsTextEnd bytes other) : index = other :=
  Nat.le_antisymm (hother.longest index h.le h.isText) (h.longest other hother.le hother.isText)

theorem Explains.not_isText (h : Explains bytes fault) : ¬ IsText bytes := by
  cases fault with
  | incomplete index => exact h.2.1
  | invalid length index => exact fun htext => h.2.1 htext.beginsText

/-- Bytes have one fault. -/
theorem Explains.unique {other : Fault} (h : Explains bytes fault) (hother : Explains bytes other) :
    fault = other := by
  cases fault with
  | incomplete index =>
      cases other with
      | incomplete index' => rw [h.1.unique hother.1]
      | invalid length index' => exact absurd h.2.2 hother.2.1
  | invalid length index =>
      cases other with
      | incomplete index' => exact absurd hother.2.2 h.2.1
      | invalid length' index' =>
          obtain ⟨hend, -, hpos, -, hcovers, hrules⟩ := h
          obtain ⟨hend', -, hpos', -, hcovers', hrules'⟩ := hother
          obtain rfl := hend.unique hend'
          -- the longer of two runs would still begin a text one byte behind the shorter
          rcases Nat.lt_trichotomy length length' with hlt | rfl | hlt
          · have hbegins := hcovers'.resolve_left (by omega)
            exact absurd (hbegins.take_of_le (by omega)) hrules
          · rfl
          · have hbegins := hcovers.resolve_left (by omega)
            exact absurd (hbegins.take_of_le (by omega)) hrules'

/-! ### The two decoders -/

theorem pieces_of_broken (h : ∀ more, pieces (bad ++ (rest.take 1 ++ more)) =
      .broken bad.length :: pieces (rest.take 1 ++ more)) :
    pieces (bad ++ rest) = .broken bad.length :: pieces rest := by
  have hall := h (rest.drop 1)
  rwa [List.take_append_drop] at hall

theorem Fails.exists_piece (h : Fails bytes) :
    ∃ piece ps, pieces bytes = piece :: ps ∧ ∀ c, piece ≠ .char c := by
  cases h with
  | broken bad rest hbytes hne hbegins hpieces =>
      rw [hbytes]
      exact ⟨_, _, pieces_of_broken hpieces, by simp⟩
  | cut hne hbegins hpieces => exact ⟨_, _, hpieces, by simp⟩

theorem IsText.exists_char {piece : Piece} (h : IsText bytes) (hmem : piece ∈ pieces bytes) :
    ∃ c, piece = .char c := by
  obtain ⟨text, rfl⟩ := h
  rw [pieces_encode] at hmem
  obtain ⟨c, -, hc⟩ := List.mem_map.1 hmem
  exact ⟨c, hc.symm⟩

/-- From the byte on that a run of bytes is refused at, the bytes begin no text. -/
theorem not_beginsText_of_broken (front : String)
    (h : ∀ more, pieces (bad ++ (rest.take 1 ++ more)) =
      .broken bad.length :: pieces (rest.take 1 ++ more)) :
    ¬ BeginsText (encode front ++ (bad ++ rest.take 1)) := by
  rintro ⟨more, htext⟩
  have hmem : .broken bad.length ∈ pieces ((encode front ++ (bad ++ rest.take 1)) ++ more) := by
    rw [List.append_assoc, pieces_append, List.append_assoc, h]
    simp
  obtain ⟨c, hc⟩ := htext.exists_char hmem
  cases hc

theorem isTextEnd_append (front : String) (h : Fails rest) :
    IsTextEnd (encode front ++ rest) (encode front).length where
  le := by simp
  isText := ⟨front, List.take_left⟩
  longest := by
    rintro n hn ⟨text, htext⟩
    obtain ⟨piece, ps, hpieces, hpiece⟩ := h.exists_piece
    have hcut := pieces_append text ((encode front ++ rest).drop n)
    rw [← htext, List.take_append_drop, pieces_append, hpieces] at hcut
    obtain ⟨more, hmore⟩ := prefix_of_map_char hpiece hcut.symm
    have hlength : n = (encode text).length := by
      rw [← htext, List.length_take]
      omega
    rw [hlength, length_encode, length_encode, ← hmore, byteSize_append]
    omega

theorem decode_append (front : String) (rest : List UInt8) :
    decode (encode front ++ rest) =
      (decodePieces (encode front).length (pieces rest)).map fun cs => front ++ String.ofList cs := by
  have hlist : ∀ (cs : List Char) index, decodePieces index (cs.map .char ++ pieces rest) =
      (decodePieces (index + byteSize cs) (pieces rest)).map (cs ++ ·) := by
    intro cs
    induction cs with
    | nil =>
        intro index
        cases hrest : decodePieces index (pieces rest) <;> simp [byteSize, hrest, Except.map]
    | cons c cs ih =>
        intro index
        rw [List.map_cons, List.cons_append, decodePieces, ih, byteSize, Nat.add_assoc]
        cases decodePieces (index + (c.utf8Size + byteSize cs)) (pieces rest) <;> rfl
  rw [decode, pieces_append, hlist, Nat.zero_add, ← length_encode]
  cases decodePieces (encode front).length (pieces rest) with
  | error fault => rfl
  | ok cs =>
      show Except.ok (String.ofList (front.toList ++ cs)) = _
      rw [String.ofList_append, String.ofList_toList]
      rfl

theorem decodeLossy_append (front : String) (rest : List UInt8) :
    decodeLossy (encode front ++ rest) = front ++ decodeLossy rest := by
  have hshown : (front.toList.map Piece.char).map Piece.shown = front.toList := by
    rw [List.map_map]
    exact List.map_id _
  rw [decodeLossy, pieces_append, List.map_append, hshown, String.ofList_append,
    String.ofList_toList, decodeLossy]

/-- The character that stands for bytes that are none. -/
def replacement : String := "\uFFFD"

theorem decodeLossy_of_pieces {piece : Piece} (hpieces : pieces bytes = piece :: pieces rest)
    (hpiece : ∀ c, piece ≠ .char c) : decodeLossy bytes = replacement ++ decodeLossy rest := by
  have hshown : piece.shown = Char.ofNat 0xFFFD := by
    cases piece with
    | char c => exact absurd rfl (hpiece c)
    | broken n => rfl
    | cut n => rfl
  rw [decodeLossy, hpieces, List.map_cons, hshown, String.ofList_cons]
  rfl

/-- What the decoders make of bytes. -/
inductive Decoding (bytes : List UInt8) : Prop
  | text (text : String) (hbytes : bytes = encode text) (hdecode : decode bytes = .ok text)
      (hlossy : decodeLossy bytes = text)
  | invalid (front : String) (bad rest : List UInt8)
      (hbytes : bytes = encode front ++ (bad ++ rest))
      (hdecode : decode bytes = .error (.invalid bad.length (encode front).length))
      (hexplains : Explains bytes (.invalid bad.length (encode front).length))
      (hlossy : decodeLossy bytes = front ++ (replacement ++ decodeLossy rest))
  | incomplete (front : String) (rest : List UInt8) (hbytes : bytes = encode front ++ rest)
      (hdecode : decode bytes = .error (.incomplete (encode front).length))
      (hexplains : Explains bytes (.incomplete (encode front).length))
      (hlossy : decodeLossy bytes = front ++ replacement)

theorem decoding (bytes : List UInt8) : Decoding bytes := by
  obtain ⟨front, rest, rfl, rfl | hfails⟩ := exists_front bytes
  · rw [List.append_nil]
    refine .text front rfl (decode_encode front) ?_
    have hlossy := decodeLossy_append front []
    rwa [List.append_nil, show decodeLossy [] = "" from rfl, String.append_empty] at hlossy
  · have hend := isTextEnd_append front hfails
    cases hfails with
    | broken bad behind hbytes hne hbegins hpieces =>
        subst hbytes
        have hall := pieces_of_broken hpieces
        have hpos := List.length_pos_iff.2 hne
        have hrules := not_beginsText_of_broken front hpieces
        have hcut : (encode front ++ (bad ++ behind)).take ((encode front).length + bad.length + 1) =
            encode front ++ (bad ++ behind.take 1) := by
          rw [Nat.add_assoc, List.take_length_add_append, List.take_length_add_append]
        refine .invalid front bad behind rfl ?_ ⟨hend, ?_, hpos, ?_, ?_, ?_⟩ ?_
        · rw [decode_append, hall]
          rfl
        · rw [← hcut] at hrules
          exact fun hbegins => hrules (hbegins.take _)
        · simp only [List.length_append]
          omega
        · refine hbegins.imp_right fun hbegins => ?_
          rw [← List.append_assoc, ← List.length_append, List.take_left]
          exact hbegins.encode_append front
        · rwa [hcut]
        · rw [decodeLossy_append, decodeLossy_of_pieces hall (by simp)]
    | cut hne hbegins hpieces =>
        have hlast : pieces rest = .cut rest.length :: pieces [] := hpieces
        have hlossy := decodeLossy_of_pieces hlast (by simp)
        rw [show decodeLossy [] = "" from rfl, String.append_empty] at hlossy
        refine .incomplete front rest rfl ?_ ⟨hend, ?_, hbegins.encode_append front⟩ ?_
        · rw [decode_append, hpieces]
          rfl
        · intro htext
          have hmem : .cut rest.length ∈ pieces (encode front ++ rest) := by
            rw [pieces_append, hpieces]
            simp
          obtain ⟨c, hc⟩ := htext.exists_char hmem
          cases hc
        · rw [decodeLossy_append, hlossy]

/-- **The fault that is reported explains the bytes**, and no other fault does. -/
theorem decode_eq_error_iff : decode bytes = .error fault ↔ Explains bytes fault := by
  have hunique : ∀ {other}, decode bytes = .error other → Explains bytes other →
      (decode bytes = .error fault ↔ Explains bytes fault) := by
    intro other hdecode hexplains
    rw [hdecode]
    constructor
    · rintro ⟨⟩
      exact hexplains
    · intro hfault
      rw [hfault.unique hexplains]
  cases decoding bytes with
  | text text hbytes hdecode hlossy =>
      refine iff_of_false (by simp [hdecode]) fun hfault => hfault.not_isText ⟨text, hbytes⟩
  | invalid front bad rest hbytes hdecode hexplains hlossy => exact hunique hdecode hexplains
  | incomplete front rest hbytes hdecode hexplains hlossy => exact hunique hdecode hexplains

end Workbench.Utf8
