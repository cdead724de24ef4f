/-
Why a document is refused.

Each layer of the reader has its own causes: references inside character data and values,
attributes inside a tag, pieces of markup, the bytes of character data sections, and the nesting
of elements.  Positions and ranges count the bytes of the text's UTF-8 form: for references within
the stretch of text that holds them, for attributes from the first character after the tag's
opening bracket.
-/
import Workbench.Failure

namespace Workbench.Xml

/-- Why digits do not spell a code point number. -/
inductive NumberFault
  | empty
  | digit
  | tooLarge
deriving DecidableEq, Repr, Inhabited

/-- The wording of a fault in a number. -/
def NumberFault.message : NumberFault → String
  | .empty => "cannot parse integer from empty string"
  | .digit => "invalid digit found in string"
  | .tooLarge => "number too large to fit in target type"

/-- Why a reference stands for no character. -/
inductive ReferenceFault
  /-- An ampersand without a semicolon before the next ampersand; `stop` is the size of the text. -/
  | unterminated (start stop : Nat)
  /-- A name other than the five predefined ones. -/
  | unknownName (start stop : Nat) (name : String)
  /-- A character number with a sign. -/
  | signed
  /-- A character number that is no number. -/
  | number (fault : NumberFault)
  /-- Character number zero. -/
  | zero
  /-- A number that is no Unicode scalar value. -/
  | notScalar (code : Nat)
deriving DecidableEq, Repr, Inhabited

/-- The wording of a fault in a reference. -/
def ReferenceFault.message : ReferenceFault → String
  | .unterminated start stop =>
      s!"Error while escaping character at range {start}..{stop}: Cannot find ';' after '&'"
  | .unknownName start stop name => s!"at {start}..{stop}: unrecognized entity `{name}`"
  | .signed => "invalid character reference: unexpected number sign"
  | .number fault => s!"invalid character reference: {fault.message}"
  | .zero => "invalid character reference: 0x0 character is not permitted in XML"
  | .notScalar code => s!"invalid character reference: `{code}` is not a valid codepoint"

/-- Why the attributes of a tag cannot be read. -/
inductive AttributeFault
  | expectedEquals (position : Nat)
  | expectedValue (position : Nat)
  | unquotedValue (position : Nat)
  | unclosedValue (position : Nat) (quote : Char)
  | duplicate (position previous : Nat)
deriving DecidableEq, Repr, Inhabited

/-- The wording of a fault in the attributes. -/
def AttributeFault.message : AttributeFault → String
  | .expectedEquals position =>
      s!"position {position}: attribute key must be directly followed by `=` or space"
  | .expectedValue position =>
      s!"position {position}: `=` must be followed by an attribute value"
  | .unquotedValue position =>
      s!"position {position}: attribute value must be enclosed in `\"` or `'`"
  | .unclosedValue position quote =>
      s!"position {position}: missing closing quote `{quote}` in attribute value"
  | .duplicate position previous =>
      s!"position {position}: duplicated attribute, previous declaration at position {previous}"

/-- Why the text cannot be cut into pieces of markup. -/
inductive MarkupFault
  | unclosedTag
  | unknownMarkup
  | unclosedComment
  | unclosedData
  | unclosedDoctype
  | unclosedInstruction
  | namelessDoctype
deriving DecidableEq, Repr, Inhabited

/-- The wording of a fault in the markup. -/
def MarkupFault.message : MarkupFault → String
  | .unclosedTag => "syntax error: tag not closed: `>` not found before end of input"
  | .unknownMarkup => "syntax error: unknown or missed symbol in markup"
  | .unclosedComment => "syntax error: comment not closed: `-->` not found before end of input"
  | .unclosedData => "syntax error: CDATA not closed: `]]>` not found before end of input"
  | .unclosedDoctype => "syntax error: DOCTYPE not closed: `>` not found before end of input"
  | .unclosedInstruction =>
      "syntax error: processing instruction or xml declaration not closed: " ++
        "`?>` not found before end of input"
  | .namelessDoctype =>
      "ill-formed document: `<!DOCTYPE>` declaration does not contain a name of a document type"

/-- Why a document is refused. -/
inductive Fault
  | markup (fault : MarkupFault)
  | attribute (fault : AttributeFault)
  | reference (fault : ReferenceFault)
  /-- The bytes of a character data section that are not UTF-8. -/
  | encoding (fault : Utf8.Fault)
  /-- A closing tag whose name is not that of the innermost open element. -/
  | mismatchedClose (expected found : String)
  /-- A closing tag where no element is open. -/
  | strayClose (found : String)
  /-- An element is to be closed where none is open. -/
  | nothingOpen
  /-- The document ends inside an element. -/
  | unclosedElement (tag : String)
  /-- A second element ends outside of all others. -/
  | secondRoot
  /-- There is no element. -/
  | noRoot
deriving DecidableEq, Repr, Inhabited

/-- The wording of a fault. -/
def Fault.message : Fault → String
  | .markup fault => fault.message
  | .attribute fault => fault.message
  | .reference fault => fault.message
  | .encoding fault => fault.message
  | .mismatchedClose expected found =>
      s!"ill-formed document: expected `</{expected}>`, but `</{found}>` was found"
  | .strayClose found =>
      s!"ill-formed document: close tag `</{found}>` does not match any open tag"
  | .nothingOpen => "closing tag without matching opening tag"
  | .unclosedElement tag => s!"unclosed element <{tag}>"
  | .secondRoot => "document has more than one root element"
  | .noRoot => "document has no root element"

/-- The failure that a fault comes to.  Bytes that are not UTF-8 fail to be decoded, as they do
everywhere else; every other fault is one of the document. -/
def Fault.failure : Fault → Failure
  | .encoding fault => .decode fault
  | fault => .xml fault.message

end Workbench.Xml
