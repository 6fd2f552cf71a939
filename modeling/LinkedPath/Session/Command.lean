import LinkedPath.Session.Workspace

/-!
# Sessions

A session names the factories and handles of a workspace and carries out
commands on them.  A command that fails leaves the session as it was.
-/

namespace LinkedPath

/-- A workspace with names for its factories and handles. -/
structure Session where
  workspace : Workspace
  nodes : List (String × Handle)
  factories : List (String × Factory)

/-- A command to a session.  Contexts and documents come as they were read, so
that a command may fail for its input or for a name, whichever is looked at
first. -/
inductive Command
  /-- Make a factory under a name. -/
  | factory (context : Except Fault Context) (caching : Bool) (name : String)
  /-- Open a document with a factory. -/
  | document (factory : String) (document : Except Fault Json) (name : String)
  /-- Open a document with a factory that has no name. -/
  | build (document : Except Fault Json) (context : Except Fault Context) (name : String)
  /-- Give a handle a second name, with the same lineage. -/
  | clone (node name : String)
  /-- Forget a handle, if there is one. -/
  | drop (node : String)
  /-- Forget a handle and hand out its document. -/
  | release (node : String)
  /-- Hand out the document of a handle. -/
  | json (node : String)
  /-- Turn the keeping of traces on or off. -/
  | caching (node : String) (enabled : Bool)
  /-- Ask for the first selected value; a handle on it may get a name. -/
  | query (node path : String) (name? : Option String)
  /-- Ask for all selected values; handles on them may get numbered names. -/
  | queryAll (node path : String) (name? : Option String)
  /-- Compile a text with a factory. -/
  | compile (factory source : String)
  /-- Hand out the look-ups in the cache of a factory. -/
  | tally (factory : String)
  /-- Make sure that a handle has this name. -/
  | check (node : String)

/-- What a command hands out. -/
inductive Outcome
  | done
  | flag (value : Bool)
  | json (value : Json)
  | selection (found? : Option Selection)
  | selections (found : Selections)
  | compiled (query : Compiled)
  | tally (tally : Tally)

namespace Session

/-- The session without names. -/
def empty : Session := { workspace := .empty, nodes := [], factories := [] }

/-- The handle of a name. -/
def node (session : Session) (name : String) : Except Fault Handle :=
  match session.nodes.lookup name with
  | some handle => .ok handle
  | none => .error (.unknownNode name)

/-- The factory of a name. -/
def factory (session : Session) (name : String) : Except Fault Factory :=
  match session.factories.lookup name with
  | some factory => .ok factory
  | none => .error (.unknownFactory name)

/-- Name a handle; an older handle of that name is forgotten. -/
def withNode (session : Session) (name : String) (handle : Handle) : Session :=
  { session with nodes := Keyed.put name handle session.nodes }

/-- Name handles by their position behind a common beginning. -/
def withNodes (session : Session) (name : String) (handles : List Handle) : Session :=
  handles.zipIdx.foldl
    (fun session (handle, position) =>
      session.withNode (name ++ "." ++ toString position) handle)
    session

/-- Forget the handle of a name. -/
def withoutNode (session : Session) (name : String) : Session :=
  { session with nodes := Keyed.erase name session.nodes }

/-- Name the handle of a selection when there is one and a name for it. -/
def keepSelection (session : Session) : Option Selection → Option String → Session
  | some (.node handle), some name => session.withNode name handle
  | _, _ => session

/-- Name the handles of selections when there are some and a name for them. -/
def keepSelections (session : Session) : Selections → Option String → Session
  | .nodes handles, some name => session.withNodes name handles
  | _, _ => session

/-- Carry out a command.  The looking up and the input come first; nothing can
fail after them. -/
def perform (session : Session) : Command → Except Fault (Outcome × Session)
  | .factory context caching name => do
      let (factory, workspace) := session.workspace.factory (← context) caching
      let factories := Keyed.put name factory session.factories
      return (.done, { session with workspace, factories })
  | .document factory document name => do
      let factory ← session.factory factory
      let (handle, workspace) := session.workspace.bind factory (← document)
      return (.done, { session with workspace }.withNode name handle)
  | .build document context name => do
      let document ← document
      let (factory, workspace) := session.workspace.factory (← context) true
      let (handle, workspace) := workspace.bind factory document
      return (.done, { session with workspace }.withNode name handle)
  | .clone node name => do
      return (.done, session.withNode name (← session.node node))
  | .drop node =>
      return (.flag (session.nodes.lookup node).isSome, session.withoutNode node)
  | .release node => do
      return (.json (← session.node node).document, session.withoutNode node)
  | .json node => do
      return (.json (← session.node node).document, session)
  | .caching node enabled => do
      let handle ← session.node node
      let workspace := session.workspace.setCaching handle enabled
      return (.flag (workspace.isCaching handle), { session with workspace })
  | .query node path name? => do
      let (found?, workspace) := session.workspace.query (← session.node node) path
      return (.selection found?, { session with workspace }.keepSelection found? name?)
  | .queryAll node path name? => do
      let (found, workspace) := session.workspace.queryAll (← session.node node) path
      return (.selections found, { session with workspace }.keepSelections found name?)
  | .compile factory source => do
      let (found, workspace) := session.workspace.compile (← session.factory factory).compiler source
      return (.compiled found.query, { session with workspace })
  | .tally factory => do
      return (.tally (session.workspace.tally (← session.factory factory).compiler), session)
  | .check node => do
      let _ ← session.node node
      return (.done, session)

/-- Carry out a command and go on with the session, unchanged after a
failure. -/
def run (session : Session) (command : Command) : Except Fault Outcome × Session :=
  match session.perform command with
  | .ok (outcome, next) => (.ok outcome, next)
  | .error fault => (.error fault, session)

/-- Entries by name, in the order of the code points of the names. -/
def sortByName {α : Type} (entries : List (String × α)) : List (String × α) :=
  entries.mergeSort fun first second => decide (first.1 ≤ second.1)

/-- The names of all handles, each with whether it keeps traces and whether it
has some. -/
def nodeStates (session : Session) : List (String × Bool × Bool) :=
  sortByName <| session.nodes.map fun (name, handle) =>
    (name, session.workspace.isCaching handle, session.workspace.hasTraces handle)

/-- The names of all factories, each with the look-ups in its cache. -/
def factoryStates (session : Session) : List (String × Tally) :=
  sortByName <| session.factories.map fun (name, factory) =>
    (name, session.workspace.tally factory.compiler)

end Session

end LinkedPath
