import LinkedPath.Match.Selection
import LinkedPath.Session.Compiler

/-!
# Workspaces

A factory opens documents under a context, and a handle asks selectors about
one document.  Two things are shared and change with use, so a workspace holds
them and the others refer to them by number: the compiler that a factory shares
with all handles that come from it, and the lineage that a handle shares with
its clones.  A lineage says whether the traces of the document are kept between
questions, and keeps them.  The lemmas say which compiler or lineage an
operation reaches; all others stay as they are.
-/

namespace LinkedPath

/-- What a handle shares with its clones. -/
structure Lineage where
  /-- The traces are kept after they were first listed. -/
  caching : Bool
  /-- The traces that are kept. -/
  traces? : Option (List Trace)
  deriving DecidableEq, Repr, Inhabited

/-- An open document. -/
structure Handle where
  document : Json
  /-- The number of the compiler. -/
  compiler : Nat
  /-- The number of the lineage. -/
  lineage : Nat
  deriving DecidableEq, Repr

/-- A source of handles under one context. -/
structure Factory where
  /-- The number of the compiler. -/
  compiler : Nat
  /-- New handles keep their traces. -/
  caching : Bool
  deriving DecidableEq, Repr

/-- The answer to a question for one value. -/
inductive Selection
  /-- The value is handed out as it is. -/
  | value (json : Json)
  /-- The value can be asked further. -/
  | node (handle : Handle)
  deriving DecidableEq, Repr

/-- The selected value, in whichever form. -/
def Selection.json : Selection → Json
  | value json => json
  | node handle => handle.document

/-- The answer to a question for all values. -/
inductive Selections
  | values (items : List Json)
  | nodes (handles : List Handle)
  deriving DecidableEq, Repr

namespace Selections

/-- The selected values, in whichever form. -/
def items : Selections → List Json
  | values items => items
  | nodes handles => handles.map Handle.document

/-- The number of selected values. -/
def size (selections : Selections) : Nat := selections.items.length

/-- Nothing was selected. -/
def isEmpty (selections : Selections) : Bool := selections.items.isEmpty

end Selections

/-- All compilers and lineages. -/
structure Workspace where
  compilers : Array Compiler
  lineages : Array Lineage

namespace Workspace

/-- The workspace without compilers and lineages. -/
def empty : Workspace := { compilers := #[], lineages := #[] }

/-- The compiler of a number. -/
def compiler (workspace : Workspace) (number : Nat) : Compiler :=
  workspace.compilers.getD number default

/-- The lineage of a number. -/
def lineage (workspace : Workspace) (number : Nat) : Lineage :=
  workspace.lineages.getD number default

/-- A new factory for a context. -/
def factory (workspace : Workspace) (context : Context) (caching : Bool) : Factory × Workspace :=
  ({ compiler := workspace.compilers.size, caching },
    { workspace with compilers := workspace.compilers.push (.ofContext context) })

/-- A new handle with a lineage of its own. -/
def newHandle (workspace : Workspace) (document : Json) (compiler : Nat) (caching : Bool) :
    Handle × Workspace :=
  ({ document, compiler, lineage := workspace.lineages.size },
    { workspace with lineages := workspace.lineages.push { caching, traces? := none } })

/-- A new handle keeps traces as it was told, and has none yet. -/
theorem lineage_newHandle (workspace : Workspace) (document : Json) (compiler : Nat)
    (caching : Bool) :
    (workspace.newHandle document compiler caching).2.lineage
        (workspace.newHandle document compiler caching).1.lineage =
      { caching, traces? := none } := by
  simp [newHandle, lineage, Array.getD_eq_getD_getElem?]

/-- A new handle changes no older lineage. -/
theorem lineage_newHandle_of_lt (workspace : Workspace) (document : Json) (compiler : Nat)
    (caching : Bool) {number : Nat} (h : number < workspace.lineages.size) :
    (workspace.newHandle document compiler caching).2.lineage number =
      workspace.lineage number := by
  simp [newHandle, lineage, Array.getD_eq_getD_getElem?, Array.getElem?_push, Nat.ne_of_lt h]

/-- Open a document. -/
def bind (workspace : Workspace) (factory : Factory) (document : Json) : Handle × Workspace :=
  workspace.newHandle document factory.compiler factory.caching

/-- The traces of the handle's document are kept between questions. -/
def isCaching (workspace : Workspace) (handle : Handle) : Bool :=
  (workspace.lineage handle.lineage).caching

/-- The traces of the handle's document are in store. -/
def hasTraces (workspace : Workspace) (handle : Handle) : Bool :=
  (workspace.lineage handle.lineage).traces?.isSome

/-- Keep traces from now on, or drop them and keep none. -/
def setCaching (workspace : Workspace) (handle : Handle) (enabled : Bool) : Workspace :=
  let lineage := workspace.lineage handle.lineage
  let traces? := if enabled then lineage.traces? else none
  { workspace with
    lineages := workspace.lineages.setIfInBounds handle.lineage { caching := enabled, traces? } }

/-- The switch reaches the lineage of the handle and no other. -/
theorem lineage_setCaching (workspace : Workspace) (handle : Handle) (enabled : Bool)
    (number : Nat) (h : handle.lineage < workspace.lineages.size) :
    (workspace.setCaching handle enabled).lineage number =
      if number = handle.lineage then
        { caching := enabled
          traces? := if enabled then (workspace.lineage handle.lineage).traces? else none }
      else
        workspace.lineage number := by
  by_cases hnumber : number = handle.lineage
  · subst hnumber
    simp [setCaching, lineage, Array.getD_eq_getD_getElem?, h]
  · have hother : handle.lineage ≠ number := fun heq => hnumber heq.symm
    simp [setCaching, lineage, Array.getD_eq_getD_getElem?, hnumber, hother]

/-- Compile a text with one of the compilers. -/
def compile (workspace : Workspace) (number : Nat) (source : String) : Stored × Workspace :=
  let (found, compiler) := (workspace.compiler number).compile source
  (found, { workspace with compilers := workspace.compilers.setIfInBounds number compiler })

/-- Compiling changes no names. -/
@[simp] theorem expander_compile (workspace : Workspace) (number other : Nat)
    (source : String) :
    ((workspace.compile number source).2.compiler other).expander =
      (workspace.compiler other).expander := by
  by_cases hother : number = other
  · subst hother
    by_cases hlt : number < workspace.compilers.size
    · simp [compile, compiler, Array.getD_eq_getD_getElem?, hlt]
    · simp [compile, compiler, Array.getD_eq_getD_getElem?, hlt]
  · simp [compile, compiler, Array.getD_eq_getD_getElem?, hother]

/-- Make one of the compilers forget all compiled selectors. -/
def clear (workspace : Workspace) (number : Nat) : Workspace :=
  { workspace with
    compilers := workspace.compilers.setIfInBounds number (workspace.compiler number).clear }

/-- The look-ups in the cache of a compiler. -/
def tally (workspace : Workspace) (number : Nat) : Tally :=
  (workspace.compiler number).cache.tally

/-- The traces of the handle's document, if its lineage keeps them; they are
listed at the first use. -/
def keptTraces? (workspace : Workspace) (handle : Handle) : Option (List Trace) × Workspace :=
  let lineage := workspace.lineage handle.lineage
  if lineage.caching then
    match lineage.traces? with
    | some kept => (some kept, workspace)
    | none =>
        let kept := traces handle.document
        let lineage := { lineage with traces? := some kept }
        (some kept,
          { workspace with
            lineages := workspace.lineages.setIfInBounds handle.lineage lineage })
  else
    (none, workspace)

/-- A handle on a selected value.  It keeps traces if the handle it was
selected from does. -/
def child (workspace : Workspace) (handle : Handle) (value : Json) : Handle × Workspace :=
  workspace.newHandle value handle.compiler (workspace.isCaching handle)

/-- Handles on selected values, in order. -/
def children (workspace : Workspace) (handle : Handle) : List Json → List Handle × Workspace
  | [] => ([], workspace)
  | value :: rest =>
      let (first, workspace) := workspace.child handle value
      let (others, workspace) := workspace.children handle rest
      (first :: others, workspace)

/-- Ask for the first selected value.  Without kept traces the walk goes no
further than to the first match. -/
def query (workspace : Workspace) (handle : Handle) (path : String) :
    Option Selection × Workspace :=
  let (found, workspace) := workspace.compile handle.compiler path
  if found.query.isVacuous then
    (none, workspace)
  else
    let expander := (workspace.compiler handle.compiler).expander
    let (kept?, workspace) := workspace.keptTraces? handle
    let first? :=
      match kept? with
      | some kept => found.query.firstOf? expander handle.document kept
      | none => found.query.firstOnWalk? expander handle.document
    match first? with
    | none => (none, workspace)
    | some value =>
        if found.query.isFinal value.isNull then
          (some (.value value), workspace)
        else
          let (node, workspace) := workspace.child handle value
          (some (.node node), workspace)

/-- Ask for all selected values, in document order. -/
def queryAll (workspace : Workspace) (handle : Handle) (path : String) :
    Selections × Workspace :=
  let (found, workspace) := workspace.compile handle.compiler path
  if found.query.isVacuous then
    (.values [], workspace)
  else
    let expander := (workspace.compiler handle.compiler).expander
    let (kept?, workspace) := workspace.keptTraces? handle
    let candidates :=
      match kept? with
      | some kept => kept
      | none => traces handle.document
    let values := found.query.allOf expander handle.document candidates
    if found.query.isFinal values.isEmpty then
      (.values values, workspace)
    else
      let (nodes, workspace) := workspace.children handle values
      (.nodes nodes, workspace)

end Workspace

end LinkedPath
