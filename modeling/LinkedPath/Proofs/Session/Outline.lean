import LinkedPath.Session.Command

/-!
# Sessions without caches

What is left of a session when everything that is stored for speed is taken
away: the names of factories stand for the names of a context, and the names of
handles for a document and the names to read it with.  A question is answered
from these alone: compile the selector, list the traces of the document, and
take what the matching ones hand out.

`Session.outline` forgets the caches of a session.  What a command hands out,
apart from handles and counts, is its `Answer`.
-/

namespace LinkedPath

/-- A document under the names of a context. -/
structure View where
  document : Json
  expander : Expander

/-- A selected value, and whether it is handed out raw. -/
structure Shown where
  raw : Bool
  json : Json
  deriving DecidableEq, Repr

/-- All selected values, and whether they are handed out raw. -/
structure ShownAll where
  raw : Bool
  items : List Json
  deriving DecidableEq, Repr

namespace View

/-- The first value that a selector selects. -/
def first? (view : View) (path : String) : Option Shown :=
  let query := Compiled.compile view.expander path
  let matching := query.matching view.expander view.document (traces view.document)
  (matching.head?.bind (query.resolve? view.document)).map fun value =>
    { raw := query.isFinal value.isNull, json := value }

/-- All values that a selector selects. -/
def all (view : View) (path : String) : ShownAll :=
  let query := Compiled.compile view.expander path
  let values := query.allOf view.expander view.document (traces view.document)
  { raw := query.isFinal values.isEmpty, items := values }

end View

/-- What a command hands out, without handles and counts. -/
inductive Answer
  | none
  | document (json : Json)
  | first (found? : Option Shown)
  | all (found : ShownAll)

/-- The names of a session, without anything that is stored for speed. -/
structure Outline where
  nodes : List (String × View)
  factories : List (String × Expander)

namespace Outline

/-- The outline without names. -/
def empty : Outline := { nodes := [], factories := [] }

def node (outline : Outline) (name : String) : Except Fault View :=
  match outline.nodes.lookup name with
  | some view => .ok view
  | none => .error (.unknownNode name)

def factory (outline : Outline) (name : String) : Except Fault Expander :=
  match outline.factories.lookup name with
  | some expander => .ok expander
  | none => .error (.unknownFactory name)

def withNode (outline : Outline) (name : String) (view : View) : Outline :=
  { outline with nodes := Keyed.put name view outline.nodes }

/-- Name views by their position behind a common beginning. -/
def withNodes (outline : Outline) (name : String) (views : List View) : Outline :=
  views.zipIdx.foldl
    (fun outline (view, position) => outline.withNode (name ++ "." ++ toString position) view)
    outline

def withoutNode (outline : Outline) (name : String) : Outline :=
  { outline with nodes := Keyed.erase name outline.nodes }

/-- Name a selected value when it is not raw and there is a name for it. -/
def keepFirst (outline : Outline) (expander : Expander) : Option Shown → Option String → Outline
  | some { raw := false, json }, some name =>
      outline.withNode name { document := json, expander }
  | _, _ => outline

/-- Name all selected values when they are not raw and there is a name for
them. -/
def keepAll (outline : Outline) (expander : Expander) : ShownAll → Option String → Outline
  | { raw := false, items }, some name =>
      outline.withNodes name (items.map fun document => { document, expander })
  | _, _ => outline

/-- Carry out a command.  Whether traces are kept is of no account. -/
def perform (outline : Outline) : Command → Except Fault (Answer × Outline)
  | .factory context _ name => do
      let factories := Keyed.put name (← context).expander outline.factories
      return (.none, { outline with factories })
  | .document factory document name => do
      let expander ← outline.factory factory
      return (.none, outline.withNode name { document := ← document, expander })
  | .build document context name => do
      let document ← document
      return (.none, outline.withNode name { document, expander := (← context).expander })
  | .clone node name => do
      return (.none, outline.withNode name (← outline.node node))
  | .drop node => return (.none, outline.withoutNode node)
  | .release node => do
      return (.document (← outline.node node).document, outline.withoutNode node)
  | .json node => do
      return (.document (← outline.node node).document, outline)
  | .query node path name? => do
      let view ← outline.node node
      let found? := view.first? path
      return (.first found?, outline.keepFirst view.expander found? name?)
  | .queryAll node path name? => do
      let view ← outline.node node
      let found := view.all path
      return (.all found, outline.keepAll view.expander found name?)
  | .caching node _ => do
      let _ ← outline.node node
      return (.none, outline)
  | .check node => do
      let _ ← outline.node node
      return (.none, outline)
  | .compile factory _ => do
      let _ ← outline.factory factory
      return (.none, outline)
  | .tally factory => do
      let _ ← outline.factory factory
      return (.none, outline)

def run (outline : Outline) (command : Command) : Except Fault Answer × Outline :=
  match outline.perform command with
  | .ok (answer, next) => (.ok answer, next)
  | .error fault => (.error fault, outline)

/-- The outline after some commands. -/
def after (outline : Outline) (commands : List Command) : Outline :=
  commands.foldl (fun outline command => (outline.run command).2) outline

/-- What some commands hand out in turn. -/
def answers : Outline → List Command → List (Except Fault Answer)
  | _, [] => []
  | outline, command :: rest =>
      (outline.run command).1 :: answers (outline.run command).2 rest

end Outline

/-! ## The outline of a session -/

def Selection.shown : Selection → Shown
  | value json => { raw := true, json }
  | node handle => { raw := false, json := handle.document }

def Selections.shown : Selections → ShownAll
  | values items => { raw := true, items }
  | nodes handles => { raw := false, items := handles.map Handle.document }

/-- What is left of an outcome without handles and counts. -/
def Outcome.answer : Outcome → Answer
  | json value => .document value
  | selection found? => .first (found?.map Selection.shown)
  | selections found => .all found.shown
  | _ => .none

/-- What a handle is asked about. -/
def Workspace.view (workspace : Workspace) (handle : Handle) : View :=
  { document := handle.document, expander := (workspace.compiler handle.compiler).expander }

namespace Session

/-- The names of a session without its caches. -/
def outline (session : Session) : Outline :=
  { nodes := session.nodes.map (Prod.map id session.workspace.view)
    factories := session.factories.map
      (Prod.map id fun factory => (session.workspace.compiler factory.compiler).expander) }

/-- The session after some commands. -/
def after (session : Session) (commands : List Command) : Session :=
  commands.foldl (fun session command => (session.run command).2) session

/-- What some commands hand out in turn, without handles and counts. -/
def answers : Session → List Command → List (Except Fault Answer)
  | _, [] => []
  | session, command :: rest =>
      (session.run command).1.map Outcome.answer :: answers (session.run command).2 rest

end Session

end LinkedPath
