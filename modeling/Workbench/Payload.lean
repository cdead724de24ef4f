/-
Output of a program, which arrives as bytes, and text that is at hand already.  A payload
keeps either form until someone asks for the other.
-/
import Workbench.Text.Utf8

namespace Workbench

/-- Bytes or text. -/
inductive Payload
  | bytes (content : List UInt8)
  | text (content : String)
deriving DecidableEq, Repr, Inhabited

namespace Payload

/-- The text of the payload; bytes have to be UTF-8. -/
def toText : Payload → Except Utf8.Fault String
  | .bytes content => Utf8.decode content
  | .text content => .ok content

/-- The text of the payload, with replacement characters where bytes are not UTF-8. -/
def toTextLossy : Payload → String
  | .bytes content => Utf8.decodeLossy content
  | .text content => content

/-- The bytes of the payload. -/
def toBytes : Payload → List UInt8
  | .bytes content => content
  | .text content => Utf8.encode content

/-- Whether the payload holds nothing. -/
def isEmpty (payload : Payload) : Bool :=
  payload.toBytes.isEmpty

end Payload

end Workbench
