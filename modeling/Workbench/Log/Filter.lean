/-
Which events are logged.

A filter is a list of directives with commas between them.  A directive gives a level, a
target, or both with an equals sign between them; a target without a level lets everything
through, and a level without a target holds for all targets.  Of the directives that fit an
event the most specific one decides: the one with the longest target, which has to be what the
event's target begins with.  Of two equal ones the later counts.

Between brackets behind the target a directive can name a span, or, in braces, a detail.  The
library opens no spans, so a directive that names one, or asks for the value of a detail, fits
no event; one that only names a detail fits the events that have it.  A value that is asked for
is a number or a regular expression.
-/
import Workbench.Decimal.Numeral
import Workbench.Expression.Reader
import Workbench.Log.Event
import Workbench.Text.Alphanumeric
import Workbench.Text.Blank
import Workbench.Text.Split

namespace Workbench.Log

/-- The least important level that is let through; `none` lets nothing through. -/
abbrev Threshold := Option Level

/-- The threshold lets events of a level through. -/
def passes (threshold : Threshold) (level : Level) : Bool :=
  threshold.any fun least => level.rank ≤ least.rank

/-- A directive of a filter. -/
structure Directive where
  threshold : Threshold
  target : Option (List Char)
  /-- The detail that an event has to have. -/
  field : Option (List Char)
  /-- The directive is about spans. -/
  spans : Bool
deriving DecidableEq, Repr, Inhabited

/-! ### Reading -/

/-- The words for thresholds. -/
def thresholdNames : List (String × Threshold) :=
  [("error", some .error), ("warn", some .warn), ("info", some .info), ("debug", some .debug),
    ("trace", some .trace), ("off", none)]

/-- The thresholds by number. -/
def numberedThresholds : List Threshold :=
  [none, some .error, some .warn, some .info, some .debug, some .trace]

/-- The number that digits spell, with or without a plus sign before them. -/
def readNumber (text : List Char) : Option Nat :=
  let digits := if text.head? = some '+' then text.drop 1 else text
  if digits = [] ∨ !digits.all Char.isDigit then none
  else some (digits.foldl (fun n c => n * 10 + (c.toNat - '0'.toNat)) 0)

/-- The threshold that a text names, in letters of either case, or gives by its number. -/
def readThreshold (text : List Char) : Option Threshold :=
  match (readNumber text).bind (numberedThresholds[·]?) with
  | some threshold => some threshold
  | none => thresholdNames.lookup (String.ofList (text.map Char.toLower))

/-- A threshold after an equals sign, where nothing stands for everything. -/
def readThresholdAfter (text : List Char) : Option Threshold :=
  if text = [] then some (some .trace) else readThreshold text

/-- A character that a directive may begin with. -/
def beginsDirective (c : Char) : Bool :=
  c == '-' || c == ':' || c == '_' || Text.isAlphanumeric c

/-- How far a directive has been read. -/
inductive Reading
  | start
  /-- In a level or a target. -/
  | name
  /-- In the name of a span that begins at a position. -/
  | span (start : Nat)
  /-- In the name of a detail that begins at a position. -/
  | field (start : Nat)
  /-- After a detail. -/
  | fieldEnd
  /-- After the brackets. -/
  | bracketEnd
  /-- In a level that begins at a position. -/
  | level (start : Nat)
deriving DecidableEq, Repr

/-- A directive that lets everything through. -/
def Directive.all : Directive := ⟨some .trace, none, none, false⟩

/-- The text behind its first `count` bytes, unless they end inside a character. -/
def dropBytes (count : Nat) : List Char → Option (List Char)
  | [] => if count = 0 then some [] else none
  | c :: text =>
      if count = 0 then some (c :: text)
      else if c.utf8Size ≤ count then dropBytes (count - c.utf8Size) text
      else none

/-- The first `count` bytes of a text, unless they end inside a character. -/
def takeBytes (count : Nat) : List Char → Option (List Char)
  | [] => if count = 0 then some [] else none
  | c :: text =>
      if count = 0 then some []
      else if c.utf8Size ≤ count then (takeBytes (count - c.utf8Size) text).map (c :: ·)
      else none

/-- The text from one position up to another. -/
def stretch (text : List Char) (start stop : Nat) : Option (List Char) :=
  (dropBytes start text).bind (takeBytes (stop - start))

/-- A value that can be asked for. -/
def isValue (text : List Char) : Bool :=
  isNumeral text || Expression.isExpression text

/-- A directive with a detail and, after an equals sign, the value it should have.  What follows
a second equals sign means nothing. -/
def Directive.withField (directive : Directive) (content : List Char) : Option Directive :=
  match Text.split '=' content with
  | _ :: value :: _ => if isValue value then some { directive with spans := true } else none
  | _ => some { directive with field := some content }

/-- Read one more character of a directive. -/
def readCharacter (text : List Char) (position : Nat) (c : Char) (reading : Reading)
    (directive : Directive) : Option (Reading × Directive) :=
  match reading with
  | .start =>
      if c = '[' then some (.span (position + 1), directive)
      else if beginsDirective c then some (.name, directive)
      else none
  | .name =>
      if c = '=' ∨ c = '[' then do
        let directive := { directive with target := some (← stretch text 0 position) }
        pure (if c = '=' then .level (position + 1) else .span (position + 1), directive)
      else some (.name, directive)
  | .span start =>
      if c = ']' then do
        let _ ← stretch text start position
        pure (.bracketEnd, { directive with spans := true })
      else if c = '\x7b' then do
        let name ← stretch text start position
        pure (.field (position + 1), { directive with spans := directive.spans || name ≠ [] })
      else some (reading, directive)
  | .field start =>
      if c = '\x7d' then do
        let content ← stretch text start position
        if content = [] then none
        else pure (.fieldEnd, ← directive.withField content)
      else some (reading, directive)
  | .fieldEnd => if c = ']' then some (.bracketEnd, directive) else none
  | .bracketEnd => if c = '=' then some (.level (position + 1), directive) else none
  | .level _ => some (reading, directive)

/-- Read the characters of a directive that are left.  The parts of the directive are cut out
of `text`. -/
def readCharacters (text : List Char) (position : Nat) (reading : Reading)
    (directive : Directive) : List Char → Option Directive
  | c :: rest => do
      let (reading, directive) ← readCharacter text position c reading directive
      readCharacters text (position + c.utf8Size) reading directive rest
  | [] =>
      match reading with
      | .name =>
          match readThreshold text with
          | some threshold => some { directive with threshold := threshold }
          | none => some { directive with target := some text }
      | .level start => do
          let threshold ← readThresholdAfter (← dropBytes start text)
          pure { directive with threshold := threshold }
      | .bracketEnd => some directive
      | _ => none

/-- The directive that a text spells.  Positions count bytes, without the blanks at both ends. -/
def readDirective (text : List Char) : Option Directive :=
  readCharacters text 0 .start .all (Text.trim text)

/-- The pieces of a filter. -/
def filterPieces (text : List Char) : List (List Char) :=
  (Text.split ',' text).filter (· ≠ [])

/-- The directives of a filter, all of which have to be readable. -/
def readFilter (text : List Char) : Option (List Directive) :=
  (filterPieces text).mapM readDirective

/-- The readable directives of a filter. -/
def readFilterLossy (text : List Char) : List Directive :=
  (filterPieces text).filterMap readDirective

/-! ### Deciding -/

/-- The directive is about an event. -/
def Directive.fits (directive : Directive) (event : Event) : Bool :=
  !directive.spans &&
    (directive.target.all fun target => target.isPrefixOf event.target.toList) &&
    directive.field.all fun field => event.fields.contains (String.ofList field)

/-- The first directive is more specific than the second. -/
def Directive.outranks (first second : Directive) : Bool :=
  let size (target : Option (List Char)) : Nat := target.elim 0 fun text => text.length + 1
  let fieldOf (field : Option (List Char)) : List Char := field.getD []
  if size first.target ≠ size second.target then size second.target < size first.target
  else if first.field.isSome ≠ second.field.isSome then first.field.isSome
  else List.lex (fieldOf second.field) (fieldOf first.field) (· < ·)

/-- The directive that decides about an event. -/
def deciding (directives : List Directive) (event : Event) : Option Directive :=
  (directives.filter fun directive => directive.fits event).foldl
    (fun best directive =>
      match best with
      | some known => if known.outranks directive then some known else some directive
      | none => some directive)
    none

/-- The event is logged.  A filter without directives lets errors through. -/
def enabled (directives : List Directive) (event : Event) : Bool :=
  if directives.isEmpty then passes (some .error) event.level
  else (deciding directives event).any fun directive => passes directive.threshold event.level

end Workbench.Log
