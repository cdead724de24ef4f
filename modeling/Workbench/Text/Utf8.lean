/-
Reading bytes as UTF-8.

Bytes are cut into pieces: a character, a broken run of bytes that no character begins with,
or the start of a character that the input ends inside.  One pass over the bytes finds the
pieces; between two bytes it only remembers the character under way (`Pending`).  A byte that
cannot continue that character closes it as broken and is then looked at afresh, so a broken
run is always the longest run that could have become a character, and at least one byte.

Both readings follow from the pieces.  `decode` accepts bytes made of characters only and
otherwise reports the first piece that is not one; `decodeLossy` writes the replacement
character for every such piece.
-/

namespace Workbench.Utf8

/-- A stretch of the input. -/
inductive Piece
  /-- The bytes of one character. -/
  | char (c : Char)
  /-- Bytes that begin no character, or that the byte after them rules out. -/
  | broken (length : Nat)
  /-- The first bytes of a character, where the input ends. -/
  | cut (length : Nat)
deriving DecidableEq, Repr, Inhabited

/-- A character whose first bytes have been read. -/
structure Pending where
  /-- How many bytes have been read. -/
  read : Nat
  /-- How many are missing. -/
  owed : Nat
  /-- The least value the next byte may have. -/
  low : UInt8
  /-- The greatest value the next byte may have. -/
  high : UInt8
  /-- The bits collected so far. -/
  bits : Nat
deriving DecidableEq, Repr

/-- What the first byte of a character announces; `none` for a byte that begins none.

The bounds on the second byte exclude overlong forms, surrogates and code points above
0x10FFFF. -/
def lead (b : UInt8) : Option Pending :=
  if 0xC2 ≤ b && b ≤ 0xDF then some ⟨1, 1, 0x80, 0xBF, b.toNat - 0xC0⟩
  else if b == 0xE0 then some ⟨1, 2, 0xA0, 0xBF, 0⟩
  else if b == 0xED then some ⟨1, 2, 0x80, 0x9F, 0xD⟩
  else if 0xE1 ≤ b && b ≤ 0xEF then some ⟨1, 2, 0x80, 0xBF, b.toNat - 0xE0⟩
  else if b == 0xF0 then some ⟨1, 3, 0x90, 0xBF, 0⟩
  else if 0xF1 ≤ b && b ≤ 0xF3 then some ⟨1, 3, 0x80, 0xBF, b.toNat - 0xF0⟩
  else if b == 0xF4 then some ⟨1, 3, 0x80, 0x8F, 4⟩
  else none

/-- The next byte lies within the bounds of the pending character. -/
def Pending.accepts (p : Pending) (b : UInt8) : Bool :=
  p.low ≤ b && b ≤ p.high

/-- The bits of a pending character with those of one more byte. -/
def Pending.bitsWith (p : Pending) (b : UInt8) : Nat :=
  p.bits * 64 + (b.toNat - 0x80)

/-- The pending character after one more byte; later bytes are free between 0x80 and 0xBF. -/
def Pending.push (p : Pending) (b : UInt8) : Pending :=
  ⟨p.read + 1, p.owed - 1, 0x80, 0xBF, p.bitsWith b⟩

/-- The pieces of the input, given the character under way. -/
def piecesFrom : Option Pending → List UInt8 → List Piece
  | none, [] => []
  | some p, [] => [.cut p.read]
  | none, b :: bs =>
      if b < 0x80 then .char (Char.ofNat b.toNat) :: piecesFrom none bs
      else match lead b with
        | some p => piecesFrom (some p) bs
        | none => .broken 1 :: piecesFrom none bs
  | some p, b :: bs =>
      if p.accepts b then
        if p.owed == 1 then .char (Char.ofNat (p.bitsWith b)) :: piecesFrom none bs
        else piecesFrom (some (p.push b)) bs
      else
        .broken p.read ::
          (if b < 0x80 then .char (Char.ofNat b.toNat) :: piecesFrom none bs
          else match lead b with
            | some q => piecesFrom (some q) bs
            | none => .broken 1 :: piecesFrom none bs)

/-- The pieces that the input consists of, in order. -/
def pieces (bytes : List UInt8) : List Piece :=
  piecesFrom none bytes

/-- Why bytes are not UTF-8, with the number of bytes before the fault. -/
inductive Fault
  /-- A run of bytes that begins no character. -/
  | invalid (length index : Nat)
  /-- The input ends inside a character. -/
  | incomplete (index : Nat)
deriving DecidableEq, Repr, Inhabited

/-- The wording of a fault. -/
def Fault.message : Fault → String
  | .invalid length index => s!"invalid utf-8 sequence of {length} bytes from index {index}"
  | .incomplete index => s!"incomplete utf-8 byte sequence from index {index}"

/-- The characters of the pieces, or the fault of the first piece that is not a character;
`index` counts the bytes before the pieces. -/
def decodePieces (index : Nat) : List Piece → Except Fault (List Char)
  | [] => .ok []
  | .char c :: ps => (decodePieces (index + c.utf8Size) ps).map (c :: ·)
  | .broken n :: _ => .error (.invalid n index)
  | .cut _ :: _ => .error (.incomplete index)

/-- The text that the bytes spell, or the first fault. -/
def decode (bytes : List UInt8) : Except Fault String :=
  (decodePieces 0 (pieces bytes)).map String.ofList

/-- The character a piece stands for when faults are tolerated. -/
def Piece.shown : Piece → Char
  | .char c => c
  | .broken _ => Char.ofNat 0xFFFD
  | .cut _ => Char.ofNat 0xFFFD

/-- The text of the bytes, with one replacement character for every faulty piece. -/
def decodeLossy (bytes : List UInt8) : String :=
  String.ofList ((pieces bytes).map Piece.shown)

/-- The number of bytes of a text. -/
def byteSize : List Char → Nat
  | [] => 0
  | c :: cs => c.utf8Size + byteSize cs

theorem byteSize_append (before rest : List Char) :
    byteSize (before ++ rest) = byteSize before + byteSize rest := by
  induction before with
  | nil => simp [byteSize]
  | cons c before ih => simp only [List.cons_append, byteSize, ih, Nat.add_assoc]

theorem byteSize_replicate (times : Nat) (c : Char) :
    byteSize (List.replicate times c) = times * c.utf8Size := by
  induction times with
  | zero => simp [byteSize]
  | succ times ih => rw [List.replicate_succ, byteSize, ih, Nat.succ_mul, Nat.add_comm]

/-- The bytes of a text. -/
def encode (text : String) : List UInt8 :=
  text.toList.flatMap String.utf8EncodeChar

end Workbench.Utf8
