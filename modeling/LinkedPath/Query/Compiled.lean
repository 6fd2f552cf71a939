import LinkedPath.Query.Part
import LinkedPath.Query.Step

/-!
# Compiled selectors

The parts of a selector become steps in reverse order: the step for the
selected node comes first, and a step for the document itself comes last.  A
predicate belongs to the step before it; behind a combinator it gets a step of
its own, and before the first step it belongs to the document.
-/

namespace LinkedPath

/-- A compiled selector. -/
structure Compiled where
  /-- The text that was compiled. -/
  source : String
  /-- The steps from right to left, without the one for the document. -/
  path : List Step
  /-- The predicates on the document itself. -/
  rootPredicates : List Predicate
  deriving DecidableEq, Repr

namespace Compiled

/-- The test for the document itself. -/
def rootTest (predicates : List Predicate) : NodeTest :=
  { name? := some Keyword.document, predicates }

/-- All steps from right to left; the last one is for the document. -/
def steps (query : Compiled) : List Step :=
  query.path ++ [.node (rootTest query.rootPredicates)]

/-- The steps read so far, last one first, and the predicates on the
document. -/
structure Draft where
  path : List Step
  rootPredicates : List Predicate
  deriving DecidableEq, Repr

/-- Before the first part. -/
def Draft.empty : Draft := { path := [], rootPredicates := [] }

/-- A segment that stands for any name. -/
def wildcard : String := "*"

/-- Attach a predicate to the step before it. -/
def Draft.require (draft : Draft) (predicate : Predicate) : Draft :=
  match draft.path with
  | [] => { draft with rootPredicates := draft.rootPredicates ++ [predicate] }
  | .child :: _ => { draft with path := .node (NodeTest.any.require predicate) :: draft.path }
  | .node test :: before => { draft with path := .node (test.require predicate) :: before }

/-- Take up one part. -/
def Draft.add (expander : Expander) (draft : Draft) : Part → Draft
  | .anchor => { draft with path := .node NodeTest.any :: draft.path }
  | .child => { draft with path := .child :: draft.path }
  | .predicate key value => draft.require (Predicate.compile expander key value)
  | .segment text =>
      let test := if text = wildcard then NodeTest.any else NodeTest.named (expander.expand text)
      { draft with path := .node test :: draft.path }

/-- Put parts together. -/
def assemble (expander : Expander) (parts : List Part) : Draft :=
  parts.foldl (Draft.add expander) Draft.empty

/-- The selector with given parts. -/
def ofParts (expander : Expander) (source : String) (parts : List Part) : Compiled :=
  let draft := assemble expander parts
  { source, path := draft.path, rootPredicates := draft.rootPredicates }

/-- Compile a selector. -/
def compile (expander : Expander) (source : String) : Compiled :=
  ofParts expander source (Part.split source)

/-- The selector names no node and tests nothing; such a selector matches
nothing. -/
def isVacuous (query : Compiled) : Bool :=
  query.rootPredicates.isEmpty && query.path.all Step.isChild

/-- The rightmost step. -/
def terminal? (query : Compiled) : Option Step := query.steps.head?

/-- The name that the rightmost step asks for. -/
def terminalName? (query : Compiled) : Option String :=
  query.terminal?.bind Step.name?

/-- The selector ends in the type keyword. -/
def selectsType (query : Compiled) : Bool :=
  query.terminalName? == some Keyword.type

/-- The selector ends in a keyword whose value is handed out as it is. -/
def endsInFinal (query : Compiled) : Bool :=
  match query.terminalName? with
  | some name => Keyword.finals.contains name
  | none => false

/-- The written form of a predicate. -/
def predicateJson (predicate : Predicate) : Json :=
  .object
    [("key", .string predicate.key), ("expected", .string predicate.expected),
      ("expanded", .bool predicate.expanded)]

/-- The written form of a step. -/
def recordJson (record : StepRecord) : Json :=
  .object
    [("name", match record.name? with
        | some name => .string name
        | none => .null),
      ("direct_child", .bool record.directChild),
      ("predicates", .array (record.predicates.map predicateJson))]

/-- The written form of a compiled selector. -/
def toJson (query : Compiled) : Json :=
  .object
    [("source", .string query.source),
      ("steps", .array (query.steps.map fun step => recordJson step.record))]

end Compiled

end LinkedPath
