import LinkedPath.Context.Expander

/-!
# Steps

A compiled selector is a list of steps.  A step either tests a node, by its
name and by predicates on its members, or is the child combinator, which says
where the next step has to match.
-/

namespace LinkedPath

/-- A test `[key=value]` on the members of a node. -/
structure Predicate where
  /-- The full name of the member. -/
  key : String
  /-- The text that the member has to hold. -/
  expected : String
  /-- The expected text is a name and was expanded. -/
  expanded : Bool
  deriving DecidableEq, Repr

namespace Predicate

/-- Some at sign of the text is not the start of `@type` or `@id`. -/
def hasLiteralKeyword : List Char → Bool
  | [] => false
  | c :: rest =>
      (c == '@' && !("type".toList.isPrefixOf rest || "id".toList.isPrefixOf rest)) ||
        hasLiteralKeyword rest

/-- Values under the key are compared as they are written. -/
def isLiteralKey (key : String) : Bool :=
  hasLiteralKeyword key.toList

/-- Compile a predicate: the key is expanded, and so is the value unless the
key is literal. -/
def compile (expander : Expander) (key value : String) : Predicate :=
  if isLiteralKey key then
    { key := expander.expand key, expected := value, expanded := false }
  else
    { key := expander.expand key, expected := expander.expand value, expanded := true }

end Predicate

/-- A test of one node: its name, unless any name will do, and predicates that
all have to hold. -/
structure NodeTest where
  name? : Option String
  predicates : List Predicate
  deriving DecidableEq, Repr

namespace NodeTest

/-- The test that every node passes. -/
def any : NodeTest := { name? := none, predicates := [] }

/-- The test for a full name. -/
def named (name : String) : NodeTest := { name? := some name, predicates := [] }

/-- One more predicate, behind the others. -/
def require (test : NodeTest) (predicate : Predicate) : NodeTest :=
  { test with predicates := test.predicates ++ [predicate] }

end NodeTest

/-- A step of a compiled selector. -/
inductive Step
  /-- The node has to pass a test. -/
  | node (test : NodeTest)
  /-- The next step has to match directly above the step before. -/
  | child
  deriving DecidableEq, Repr

namespace Step

/-- The step is the child combinator. -/
def isChild : Step → Bool
  | child => true
  | node _ => false

/-- The name that the step asks for. -/
def name? : Step → Option String
  | node test => test.name?
  | child => none

/-- The predicates that the step asks for. -/
def predicates : Step → List Predicate
  | node test => test.predicates
  | child => []

end Step

/-- A step as it is written out, with the same fields for every step. -/
structure StepRecord where
  /-- The full name that is asked for; without it any node will do. -/
  name? : Option String
  /-- The step is the child combinator. -/
  directChild : Bool
  predicates : List Predicate
  deriving DecidableEq, Repr

namespace StepRecord

/-- The record of a test. -/
def node (test : NodeTest) : StepRecord :=
  { name? := test.name?, directChild := false, predicates := test.predicates }

/-- The record of the child combinator. -/
def child : StepRecord := { name? := none, directChild := true, predicates := [] }

end StepRecord

/-- The record of a step. -/
def Step.record : Step → StepRecord
  | node test => .node test
  | child => .child

end LinkedPath
