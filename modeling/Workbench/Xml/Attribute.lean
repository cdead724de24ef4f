/-
The attributes of a tag.

After the tag's name come keys, each followed by an equals sign and a value in quotes of
either kind; blanks around the equals sign and between attributes are optional.  A key is what
stands before the next equals sign or blank, its first character excepted, which may be
anything but a blank.  Every attribute is read to its end, references included, before the next
one is looked at, so the first fault in the order of the text is the one reported.
-/
import Workbench.Xml.Reference

namespace Workbench.Xml

/-- The four blank characters of markup. -/
def isSpace (c : Char) : Bool :=
  c == ' ' || c == '\t' || c == '\r' || c == '\n'

/-- A character that continues a key. -/
def inKey (c : Char) : Bool :=
  c != '=' && !isSpace c

/-- How far the content of a tag has been read: the bytes before the cursor and the text from it
on. -/
structure Cursor where
  position : Nat
  rest : List Char

/-- The cursor behind the characters that satisfy `p`. -/
def Cursor.skip (p : Char → Bool) (cursor : Cursor) : Cursor :=
  ⟨cursor.position + Utf8.byteSize (cursor.rest.takeWhile p), cursor.rest.dropWhile p⟩

theorem Cursor.length_skip_le (p : Char → Bool) (cursor : Cursor) :
    (cursor.skip p).rest.length ≤ cursor.rest.length :=
  (List.dropWhile_suffix (l := cursor.rest) p).length_le

/-- An attribute as it stands in the tag, and the text after it. -/
structure RawAttribute where
  /-- Where the key begins. -/
  start : Nat
  key : List Char
  /-- The value before its references are replaced. -/
  value : List Char
  /-- What follows the closing quote. -/
  next : Cursor

/-- The equals sign after a key, with or without blanks before it.  `total` is the size of the
tag's content. -/
def expectEquals (total : Nat) (cursor : Cursor) : Except AttributeFault Cursor :=
  match (cursor.skip isSpace).rest with
  | '=' :: rest => .ok ⟨(cursor.skip isSpace).position + 1, rest⟩
  | [] => .error (.expectedEquals total)
  | _ => .error (.expectedEquals (cursor.skip isSpace).position)

theorem length_expectEquals_le {total : Nat} {cursor next : Cursor}
    (h : expectEquals total cursor = .ok next) : next.rest.length < cursor.rest.length := by
  have hle := cursor.length_skip_le isSpace
  unfold expectEquals at h
  split at h
  · rename_i heq
    cases h
    rw [heq, List.length_cons] at hle
    exact hle
  · cases h
  · cases h

/-- The quoted value after an equals sign. -/
def readValue (total : Nat) (cursor : Cursor) : Except AttributeFault (List Char × Cursor) :=
  match (cursor.skip isSpace).rest with
  | [] => .error (.expectedValue total)
  | quote :: body =>
      if quote = '"' ∨ quote = '\'' then
        match body.dropWhile (· != quote) with
        | [] => .error (.unclosedValue total quote)
        | _ :: rest =>
            let value := body.takeWhile (· != quote)
            .ok (value, ⟨(cursor.skip isSpace).position + 1 + Utf8.byteSize value + 1, rest⟩)
      else .error (.unquotedValue (cursor.skip isSpace).position)

theorem length_readValue_le {total : Nat} {cursor next : Cursor} {value : List Char}
    (h : readValue total cursor = .ok (value, next)) :
    next.rest.length < cursor.rest.length := by
  have hle := cursor.length_skip_le isSpace
  unfold readValue at h
  split at h
  · cases h
  · rename_i quote body heq
    rw [heq] at hle
    split at h
    · split at h
      · cases h
      · rename_i c rest hbody
        cases h
        have hb := (List.dropWhile_suffix (l := body) (· != quote)).length_le
        rw [hbody] at hb
        simp only [List.length_cons] at hle hb
        show rest.length < _
        omega
    · cases h

/-- The attribute that begins at a character that is not blank; `seen` holds the keys before it
and where they began. -/
def readAttribute (total : Nat) (seen : List (List Char × Nat)) (start : Nat)
    (first : Char) (rest : List Char) : Except AttributeFault RawAttribute := do
  let key := first :: rest.takeWhile inKey
  let afterKey : Cursor := ⟨start + Utf8.byteSize key, rest.dropWhile inKey⟩
  let afterEquals ← expectEquals total afterKey
  match seen.lookup key with
  | some previous => .error (.duplicate start previous)
  | none =>
      let (value, next) ← readValue total afterEquals
      pure ⟨start, key, value, next⟩

theorem length_readAttribute_lt {total : Nat} {seen : List (List Char × Nat)} {start : Nat}
    {first : Char} {rest : List Char} {raw : RawAttribute}
    (h : readAttribute total seen start first rest = .ok raw) :
    raw.next.rest.length < rest.length := by
  simp only [readAttribute, bind, Except.bind] at h
  split at h
  · cases h
  · rename_i afterEquals hequals
    split at h
    · cases h
    · split at h
      · cases h
      · rename_i pair hvalue
        obtain ⟨value, next⟩ := pair
        cases h
        have h₁ := length_expectEquals_le hequals
        have h₂ := length_readValue_le hvalue
        have h₃ := (List.dropWhile_suffix (l := rest) inKey).length_le
        simp only at h₁ h₂ ⊢
        omega

/-- The attributes from the cursor on, with the references of their values replaced. -/
def attributesFrom (total : Nat) (seen : List (List Char × Nat)) (cursor : Cursor) :
    Except Fault (List (String × String)) :=
  match _h : (cursor.skip isSpace).rest with
  | [] => .ok []
  | first :: rest =>
      match _hraw : readAttribute total seen (cursor.skip isSpace).position first rest with
      | .error fault => .error (.attribute fault)
      | .ok raw =>
          match unescape raw.value with
          | .error fault => .error (.reference fault)
          | .ok value => do
              let more ← attributesFrom total ((raw.key, raw.start) :: seen) raw.next
              pure ((String.ofList raw.key, String.ofList value) :: more)
termination_by cursor.rest.length
decreasing_by
  have h₁ := length_readAttribute_lt ‹_›
  have h₂ := cursor.length_skip_le isSpace
  simp_all
  omega

/-- A character of the name in a tag. -/
def inName (c : Char) : Bool :=
  !isSpace c

/-- The name in the content of a tag. -/
def tagName (content : List Char) : String :=
  String.ofList (content.takeWhile inName)

/-- The name and the attributes that the content of a tag spells. -/
def readTag (content : List Char) : Except Fault (String × List (String × String)) := do
  let attributes ← attributesFrom (Utf8.byteSize content) [] (Cursor.skip inName ⟨0, content⟩)
  pure (tagName content, attributes)

end Workbench.Xml
