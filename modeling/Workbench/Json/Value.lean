/-
JSON values, as far as the library tells them apart.

Numbers matter only if they are written as whole numbers, and texts only if they can be
characters: an escape for half of a surrogate pair stands for none.
-/

namespace Workbench

/-- A JSON value. -/
inductive Json
  | null
  | bool (value : Bool)
  /-- A number, with its value if it is written without a point, an exponent and a sign before
  zero. -/
  | number (whole : Option Int)
  /-- A text; `none` if it holds half of a surrogate pair. -/
  | string (content : Option String)
  | array (items : List Json)
  | object (members : List (Option String × Json))
deriving Repr, Inhabited

namespace Json

/-- The members of an object that have a name. -/
def named (members : List (Option String × Json)) (name : String) : List Json :=
  (members.filter fun member => member.1 == some name).map Prod.snd

/-- Every member has a name made of characters. -/
def allNamed (members : List (Option String × Json)) : Bool :=
  members.all fun member => member.1.isSome

end Json

end Workbench
