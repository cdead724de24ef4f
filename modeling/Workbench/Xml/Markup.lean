/-
Cutting a document into pieces of markup.

A piece begins at an opening bracket and is told apart by the character after it; everything up
to the next opening bracket is text.  Each kind of piece has its own way to end: a tag at the
first closing bracket outside of quotes, a comment, a character data section and an
instruction at the first closing bracket with the right characters before it, a document type
at the closing bracket that balances the opening ones.

`scan` gives the pieces up to the first place where no piece can be cut, together with the
fault there.  The pieces are not yet checked against each other, and neither references nor
attributes are read.
-/
import Workbench.Xml.Attribute

namespace Workbench.Xml

/-- A piece of a document. -/
inductive Markup
  /-- Characters between two tags, references not yet replaced. -/
  | text (raw : List Char)
  /-- A character data section, as bytes: nothing in it is markup. -/
  | data (bytes : List UInt8)
  /-- An opening tag: name and attributes. -/
  | opening (content : List Char)
  /-- An opening tag that closes itself. -/
  | single (content : List Char)
  /-- A closing tag. -/
  | closing (name : List Char)
  /-- A comment, without its delimiters. -/
  | comment (content : List Char)
  /-- A processing instruction or the declaration of the document. -/
  | instruction (content : List Char)
  /-- A document type. -/
  | doctype (content : List Char)
deriving DecidableEq, Repr, Inhabited

/-! ### Where a piece ends

Each function returns the characters before the closing bracket and those after it. -/

/-- The quote that is open after one more character. -/
def quoteAfter (quote : Option Char) (c : Char) : Option Char :=
  match quote with
  | some q => if c = q then none else some q
  | none => if c = '"' ∨ c = '\'' then some c else none

/-- The end of a tag: the first closing bracket outside of quotes.  `quote` is the quote that
is open. -/
def cutTag (quote : Option Char) : List Char → Option (List Char × List Char)
  | [] => none
  | c :: cs =>
      if quote = none ∧ c = '>' then some ([], cs)
      else (cutTag (quoteAfter quote c) cs).map fun cut => (c :: cut.1, cut.2)

/-- The first closing bracket with the right characters before it.  `before` holds the
characters before the rest, the last one first, and `closes` looks at them. -/
def cutAfter (closes : List Char → Bool) (before : List Char) :
    List Char → Option (List Char × List Char)
  | [] => none
  | c :: cs =>
      if c = '>' ∧ closes before = true then some (before.reverse, cs)
      else cutAfter closes (c :: before) cs

/-- The closing bracket that balances `depth` opening brackets and the one before them. -/
def cutBalanced (depth : Nat) : List Char → Option (List Char × List Char)
  | [] => none
  | c :: cs =>
      if c = '>' ∧ depth = 0 then some ([], cs)
      else
        let depth := if c = '<' then depth + 1 else if c = '>' then depth - 1 else depth
        (cutBalanced depth cs).map fun cut => (c :: cut.1, cut.2)

/-- Two hyphens end a comment, after the mark and the two hyphens it begins with. -/
def closesComment : List Char → Bool
  | '-' :: '-' :: _ :: _ :: _ :: _ => true
  | _ => false

/-- Two square brackets end a character data section. -/
def closesData : List Char → Bool
  | ']' :: ']' :: _ => true
  | _ => false

/-- A question mark ends an instruction; it may be the one that begins it. -/
def closesInstruction : List Char → Bool
  | '?' :: _ => true
  | _ => false

/-! ### Pieces by kind

Each function reads what follows the opening bracket. -/

/-- A comment; it has to begin with a mark and two hyphens. -/
def readComment (cs : List Char) : Except MarkupFault (Markup × List Char) :=
  match cutAfter closesComment [] cs with
  | some ('!' :: '-' :: '-' :: content, rest) => .ok (.comment content.dropLast.dropLast, rest)
  | _ => .error .unclosedComment

/-- A character data section. -/
def readData (cs : List Char) : Except MarkupFault (Markup × List Char) :=
  match cutAfter closesData [] cs with
  | some ('!' :: '[' :: 'C' :: 'D' :: 'A' :: 'T' :: 'A' :: '[' :: content, rest) =>
      .ok (.data (Utf8.encode (String.ofList content.dropLast.dropLast)), rest)
  | _ => .error .unclosedData

/-- The keyword of a document type, in letters of either case. -/
def doctypeKeyword : List Char := ['!', 'd', 'o', 'c', 't', 'y', 'p', 'e']

/-- A document type; after the keyword there has to be something that is not blank. -/
def readDoctype (cs : List Char) : Except MarkupFault (Markup × List Char) :=
  match cutBalanced 0 cs with
  | some (before, rest) =>
      if (before.take 8).map Char.toLower = doctypeKeyword then
        if (before.drop 8).all isSpace then .error .namelessDoctype
        else .ok (.doctype ((before.drop 8).dropWhile isSpace), rest)
      else .error .unclosedDoctype
  | none => .error .unclosedDoctype

/-- A processing instruction; the question marks at its ends are two. -/
def readInstruction (cs : List Char) : Except MarkupFault (Markup × List Char) :=
  match cutAfter closesInstruction [] cs with
  | some (_ :: c :: content, rest) => .ok (.instruction (c :: content).dropLast, rest)
  | _ => .error .unclosedInstruction

/-- The name in a closing tag: what follows the slash, without the blanks at its end unless
there is nothing else. -/
def closingName (cs : List Char) : List Char :=
  if cs.all isSpace then cs else (cs.reverse.dropWhile isSpace).reverse

/-- A closing tag. -/
def readClosing (cs : List Char) : Except MarkupFault (Markup × List Char) :=
  match cutTag none cs with
  | some (content, rest) => .ok (.closing (closingName (content.drop 1)), rest)
  | none => .error .unclosedTag

/-- An opening tag; one that ends in a slash closes itself. -/
def readOpening (cs : List Char) : Except MarkupFault (Markup × List Char) :=
  match cutTag none cs with
  | some (content, rest) =>
      if content.getLast? = some '/' then .ok (.single content.dropLast, rest)
      else .ok (.opening content, rest)
  | none => .error .unclosedTag

/-- The piece that begins with the opening bracket before `cs`. -/
def readMarkup (cs : List Char) : Except MarkupFault (Markup × List Char) :=
  match cs with
  | [] => .error .unclosedTag
  | '!' :: '-' :: _ => readComment cs
  | '!' :: '[' :: _ => readData cs
  | '!' :: 'D' :: _ => readDoctype cs
  | '!' :: 'd' :: _ => readDoctype cs
  | '!' :: _ => .error .unknownMarkup
  | '?' :: _ => readInstruction cs
  | '/' :: _ => readClosing cs
  | _ => readOpening cs

/-! ### Every piece is shorter than the text it is cut from -/

theorem length_cutTag_lt {quote : Option Char} {cs before rest : List Char}
    (h : cutTag quote cs = some (before, rest)) : rest.length < cs.length := by
  induction cs generalizing quote before with
  | nil => simp [cutTag] at h
  | cons c cs ih =>
      rw [cutTag] at h
      split at h
      · cases h
        simp
      · obtain ⟨cut, hcut, heq⟩ := Option.map_eq_some_iff.1 h
        cases heq
        have := ih hcut
        simp only [List.length_cons]
        omega

theorem length_cutAfter_lt {closes : List Char → Bool} {seen cs before rest : List Char}
    (h : cutAfter closes seen cs = some (before, rest)) : rest.length < cs.length := by
  induction cs generalizing seen with
  | nil => simp [cutAfter] at h
  | cons c cs ih =>
      rw [cutAfter] at h
      split at h
      · cases h
        simp
      · have := ih h
        simp only [List.length_cons]
        omega

theorem length_cutBalanced_lt {depth : Nat} {cs before rest : List Char}
    (h : cutBalanced depth cs = some (before, rest)) : rest.length < cs.length := by
  induction cs generalizing depth before with
  | nil => simp [cutBalanced] at h
  | cons c cs ih =>
      rw [cutBalanced] at h
      split at h
      · cases h
        simp
      · obtain ⟨cut, hcut, heq⟩ := Option.map_eq_some_iff.1 h
        cases heq
        have := ih hcut
        simp only [List.length_cons]
        omega

theorem length_readComment_lt {cs rest : List Char} {m : Markup}
    (h : readComment cs = .ok (m, rest)) : rest.length < cs.length := by
  unfold readComment at h
  split at h
  · rename_i hcut
    cases h
    exact length_cutAfter_lt hcut
  · cases h

theorem length_readData_lt {cs rest : List Char} {m : Markup}
    (h : readData cs = .ok (m, rest)) : rest.length < cs.length := by
  unfold readData at h
  split at h
  · rename_i hcut
    cases h
    exact length_cutAfter_lt hcut
  · cases h

theorem length_readDoctype_lt {cs rest : List Char} {m : Markup}
    (h : readDoctype cs = .ok (m, rest)) : rest.length < cs.length := by
  unfold readDoctype at h
  split at h
  · rename_i hcut
    split at h
    · split at h
      · cases h
      · cases h
        exact length_cutBalanced_lt hcut
    · cases h
  · cases h

theorem length_readInstruction_lt {cs rest : List Char} {m : Markup}
    (h : readInstruction cs = .ok (m, rest)) : rest.length < cs.length := by
  unfold readInstruction at h
  split at h
  · rename_i hcut
    cases h
    exact length_cutAfter_lt hcut
  · cases h

theorem length_readClosing_lt {cs rest : List Char} {m : Markup}
    (h : readClosing cs = .ok (m, rest)) : rest.length < cs.length := by
  unfold readClosing at h
  split at h
  · rename_i hcut
    cases h
    exact length_cutTag_lt hcut
  · cases h

theorem length_readOpening_lt {cs rest : List Char} {m : Markup}
    (h : readOpening cs = .ok (m, rest)) : rest.length < cs.length := by
  unfold readOpening at h
  split at h
  · rename_i hcut
    split at h <;> cases h <;> exact length_cutTag_lt hcut
  · cases h

theorem length_readMarkup_lt {cs rest : List Char} {m : Markup}
    (h : readMarkup cs = .ok (m, rest)) : rest.length < cs.length := by
  unfold readMarkup at h
  split at h
  · cases h
  · exact length_readComment_lt h
  · exact length_readData_lt h
  · exact length_readDoctype_lt h
  · exact length_readDoctype_lt h
  · cases h
  · exact length_readInstruction_lt h
  · exact length_readClosing_lt h
  · exact length_readOpening_lt h

/-! ### The whole document -/

/-- The pieces of a document, up to its end or to the first fault. -/
structure Scan where
  pieces : List Markup
  fault : Option MarkupFault
deriving DecidableEq, Repr, Inhabited

/-- A scan with one more piece in front. -/
def Scan.after (piece : Markup) (scan : Scan) : Scan :=
  { scan with pieces := piece :: scan.pieces }

/-- A character of text between pieces of markup. -/
def inText (c : Char) : Bool :=
  c != '<'

/-- The pieces of a text. -/
def scan (cs : List Char) : Scan :=
  match cs with
  | [] => ⟨[], none⟩
  | c :: rest =>
      if c = '<' then
        match _h : readMarkup rest with
        | .error fault => ⟨[], some fault⟩
        | .ok (piece, more) => (scan more).after piece
      else
        (scan (rest.dropWhile inText)).after (.text (c :: rest.takeWhile inText))
termination_by cs.length
decreasing_by
  · have := length_readMarkup_lt ‹_›
    simp only [List.length_cons]
    omega
  · have := (List.dropWhile_suffix (l := rest) inText).length_le
    simp only [List.length_cons]
    omega

/-- A document without the byte order mark it may begin with. -/
def withoutMark : List Char → List Char
  | [] => []
  | c :: cs => if c = Char.ofNat 0xFEFF then cs else c :: cs

end Workbench.Xml
