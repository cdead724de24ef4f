/-
Editing shared elements under names.

A session is a store together with names for some of its elements.  Each step makes an element
and names it, changes an element, or asks about one; a step that names an unknown element or an
absent child is refused and changes nothing.
-/
import Workbench.Xml.Document
import Workbench.Xml.Store
import Workbench.Xml.Writer

namespace Workbench.Xml

/-- One step of a session; `as` is the name that a new element gets. -/
inductive Step
  | parse (as document : String)
  | new (as tag : String) (attributes : Attributes) (text : Option String)
  | copy (as el : String)
  | child (as el : String) (index : Nat)
  | set (el name value : String)
  | setText (el : String) (text : Option String)
  | setTail (el : String) (tail : Option String)
  | setTag (el tag : String)
  | append (el child : String)
  | findAll (el tag : String) (as : Option String)
  | get (el name : String)
  | count (el : String)
  | same (el other : String)
  | equal (el other : String)
  | compact (el : String)
  | pretty (el : String)
  | outline (el : String)
  | options (el : String)
  | valueList (el tag : String) (names : List String)
deriving DecidableEq, Repr, Inhabited

/-- What a step answers. -/
inductive Answer
  | compact (text : String)
  | pretty (text : String)
  | outline (rows : List (Nat × Fields))
  | found (texts : List String)
  | value (value : Option String)
  | count (children : Nat)
  | same (answer : Bool)
  | equal (answer : Bool)
  | values (values : List String)
deriving DecidableEq, Repr, Inhabited

/-- Why a step is refused. -/
inductive Refusal
  /-- No element has this name. -/
  | noElement (name : String)
  /-- The element has no child at this position. -/
  | noChild (index : Nat)
  /-- An element that contains itself has no written form. -/
  | cyclic
  /-- A document cannot be read. -/
  | unreadable (failure : Failure)
deriving DecidableEq, Repr, Inhabited

/-- Shared elements, some of them under names. -/
structure Session where
  store : Store
  names : List (String × Ref)
deriving DecidableEq, Repr, Inhabited

namespace Session

/-- No elements and no names. -/
def empty : Session := ⟨.empty, []⟩

/-- The reference behind a name. -/
def ref (session : Session) (name : String) : Except Refusal Ref :=
  match session.names.lookup name with
  | some ref => .ok ref
  | none => .error (.noElement name)

/-- The cell behind a reference. -/
def cell (session : Session) (ref : Ref) : Cell :=
  (session.store.get? ref).getD default

/-- The element behind a reference. -/
def element (session : Session) (ref : Ref) : Except Refusal Element :=
  match session.store.view ref with
  | some element => .ok element
  | none => .error .cyclic

/-- Let a name stand for a reference; the latest use of a name counts. -/
def bind (session : Session) (name : String) (ref : Ref) : Session :=
  { session with names := (name, ref) :: session.names }

/-- Let numbered names stand for references. -/
def bindAll (session : Session) (name : String) (number : Nat) : List Ref → Session
  | [] => session
  | ref :: refs => (session.bind (name ++ toString number) ref).bindAll name (number + 1) refs

/-- Answer with the compact form of an element. -/
def showing (session : Session) (ref : Ref) : Except Refusal (Answer × Session) := do
  let element ← session.element ref
  pure (.compact element.compact, session)

/-- Name the element that a store has got last. -/
def named (session : Session) (name : String) (ref : Ref) (store : Store) :
    Except Refusal (Answer × Session) :=
  ({ session with store := store }.bind name ref).showing ref

/-- Change the element behind a name. -/
def change (session : Session) (name : String) (f : Store → Ref → Store) :
    Except Refusal (Answer × Session) := do
  let ref ← session.ref name
  { session with store := f session.store ref }.showing ref

/-- Ask about an element with everything below it. -/
def asking (session : Session) (name : String) (f : Element → Answer) :
    Except Refusal (Answer × Session) := do
  let element ← session.element (← session.ref name)
  pure (f element, session)

/-- Ask about an element alone. -/
def askingCell (session : Session) (name : String) (f : Cell → Answer) :
    Except Refusal (Answer × Session) := do
  let ref ← session.ref name
  pure (f (session.cell ref), session)

/-- The attributes that come from putting them one after the other. -/
def attributesOf (entries : Attributes) : Attributes :=
  entries.foldl (fun attributes entry => attributes.put entry.1 entry.2) []

/-- The answer to a step and the session after it. -/
def step (session : Session) : Step → Except Refusal (Answer × Session)
  | .parse as document =>
      match read document with
      | .error failure => .error (.unreadable failure)
      | .ok element =>
          let (ref, store) := session.store.add element
          session.named as ref store
  | .new as tag attributes text =>
      let cell := Cell.leaf { Fields.plain tag (attributesOf attributes) with text := text }
      session.named as session.store.next (session.store.push cell)
  | .copy as el => do
      let ref ← session.ref el
      session.named as session.store.next (session.store.copy (session.cell ref))
  | .child as el index => do
      let ref ← session.ref el
      match (session.cell ref).children[index]? with
      | some child => session.named as child session.store
      | none => .error (.noChild index)
  | .set el name value => session.change el fun store ref => store.putAttribute ref name value
  | .setText el text => session.change el fun store ref => store.putText ref text
  | .setTail el tail => session.change el fun store ref => store.putTail ref tail
  | .setTag el tag => session.change el fun store ref => store.putTag ref tag
  | .append el child => do
      let ref ← session.ref el
      let childRef ← session.ref child
      { session with store := session.store.append ref childRef }.showing ref
  | .findAll el tag as => do
      let ref ← session.ref el
      let refs := session.store.findAll (session.cell ref) tag
      let elements ← refs.mapM session.element
      let session := match as with
        | some name => session.bindAll name 0 refs
        | none => session
      pure (.found (elements.map Element.compact), session)
  | .get el name => session.askingCell el fun cell => .value (cell.attributes.get? name)
  | .count el => session.askingCell el fun cell => .count cell.children.length
  | .same el other => do
      let left ← session.ref el
      let right ← session.ref other
      pure (.same (left == right), session)
  | .equal el other => do
      let left ← session.ref el
      let right ← session.ref other
      pure (.equal ((← session.element left) == (← session.element right)), session)
  | .compact el => session.asking el fun element => .compact element.compact
  | .pretty el => session.asking el fun element => .pretty element.pretty
  | .outline el => session.asking el fun element => .outline element.outline
  | .options el => session.askingCell el fun cell => .values (session.store.options cell)
  | .valueList el tag names =>
      session.askingCell el fun cell => .values (session.store.valueList cell tag names)

/-- The session after a step; a refused step changes nothing. -/
def after (session : Session) (step : Step) : Session :=
  match session.step step with
  | .ok (_, session) => session
  | .error _ => session

/-- The answers to steps one after the other. -/
def answers (session : Session) : List Step → List (Except Refusal Answer)
  | [] => []
  | step :: steps =>
      ((session.step step).map fun result => result.1) :: (session.after step).answers steps

end Session

end Workbench.Xml
