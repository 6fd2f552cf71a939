import LinkedPath.Match.Content
import LinkedPath.Query.Compiled
import LinkedPath.Trace.Basic

/-!
# Search for a placement

A selector matches a trace when its node steps can be placed on the chain of
nodes that leads from the document to the node: every step above the one before
it, the first on the node itself, the last one and every step behind a
combinator directly above the step before.  The search goes through the steps
from right to left.  A bookmark counts the positions that are still free, and
a free step tries them from the bookmark downwards, nearest first.

Whether a step has to sit directly below the bookmark follows from the step
before it, so a step that failed below a bookmark fails there always.  A table
remembers such pairs; without it the search would be exponential in the number
of steps.

An observer holds the table for the search and hears of everything that is done
with it.  The observer of `place` is the table itself.
-/

namespace LinkedPath

/-- The node passes the test: its key stands for the name and its value
satisfies every predicate. -/
def NodeTest.passes (expander : Expander) (document : Json) (test : NodeTest)
    (entry : Entry) : Bool :=
  (match test.name? with
    | some name => expander.accepts entry.key name
    | none => true) &&
  (test.predicates.isEmpty ||
    match entry.value? document with
    | some value => test.predicates.all fun predicate => predicate.holds expander value
    | none => false)

namespace Search

/-- The pairs of a step and a bookmark that are known to fail, one row for
each step. -/
structure FailureTable where
  width : Nat
  marks : Array Bool

namespace FailureTable

/-- The table without marks. -/
def empty (rows width : Nat) : FailureTable :=
  { width, marks := Array.replicate (rows * width) false }

/-- The place of a pair in the table. -/
def slot (table : FailureTable) (step bookmark : Nat) : Nat :=
  step * table.width + bookmark

/-- The pair is marked. -/
def contains (table : FailureTable) (step bookmark : Nat) : Bool :=
  table.marks.getD (table.slot step bookmark) false

/-- Mark a pair. -/
def mark (table : FailureTable) (step bookmark : Nat) : FailureTable :=
  { table with marks := table.marks.setIfInBounds (table.slot step bookmark) true }

end FailureTable

/-- What a search does with a pair of a step and a bookmark. -/
inductive Deed
  /-- It sets out to place the steps from that step on. -/
  | call
  /-- It asks the table. -/
  | ask
  /-- It marks the pair. -/
  | mark
  deriving DecidableEq, Repr

/-- The table after something was done with a pair. -/
def FailureTable.after (table : FailureTable) (deed : Deed) (step bookmark : Nat) :
    FailureTable :=
  match deed with
  | .mark => table.mark step bookmark
  | .call | .ask => table

/-- What looks on at a search.  Its states hold the table, and it takes note of
what is done with a pair, which is the same for the table as without it. -/
structure Observer (State : Type) where
  table : State → FailureTable
  /-- Note what is done with the pair of a step and a bookmark, under a flag. -/
  note : Deed → Nat → Nat → Bool → State → State
  table_note : ∀ deed step bookmark pinned state,
    table (note deed step bookmark pinned state) = (table state).after deed step bookmark

/-- The table alone. -/
def Observer.plain : Observer FailureTable where
  table := id
  note := fun deed step bookmark _ table => table.after deed step bookmark
  table_note := fun _ _ _ _ _ => rfl

/-- An attempt to place steps: it answers and hands on the state. -/
abbrev Attempt (State : Type) := State → Bool × State

variable {State : Type}

/-- Try the positions below a bookmark, nearest first, until one succeeds. -/
def nearest (attempt : Nat → Attempt State) : Nat → Attempt State
  | 0, state => (false, state)
  | position + 1, state =>
      match attempt position state with
      | (true, state) => (true, state)
      | (false, state) => nearest attempt position state

/-- Ask the table about a pair.  If it is not marked, make the attempt, and mark
the pair when that fails. -/
def memo (observer : Observer State) (number bookmark : Nat) (pinned : Bool)
    (attempt : Attempt State) : Attempt State := fun state =>
  let asked := observer.note .ask number bookmark pinned state
  if (observer.table asked).contains number bookmark then
    (false, asked)
  else
    match attempt asked with
    | (true, state) => (true, state)
    | (false, state) => (false, observer.note .mark number bookmark pinned state)

/-- Place steps below a bookmark, with an observer.  The number of the first step
is its row in the table; a pinned step has to take the position right below the
bookmark. -/
def explore (observer : Observer State) (passes : NodeTest → Nat → Bool) :
    List Step → Nat → Nat → Bool → Attempt State
  | [], number, bookmark, pinned, state =>
      (true, observer.note .call number bookmark pinned state)
  | .child :: rest, number, bookmark, pinned, state =>
      explore observer passes rest (number + 1) bookmark true
        (observer.note .call number bookmark pinned state)
  | .node _ :: _, number, 0, pinned, state => (false, observer.note .call number 0 pinned state)
  | .node test :: rest, number, below + 1, pinned, state =>
      let attempt : Nat → Attempt State := fun position state =>
        if passes test position then
          explore observer passes rest (number + 1) position false state
        else
          (false, state)
      -- The last step is for the document, which has nothing above it.
      let candidates : Attempt State := fun state =>
        if pinned || rest.isEmpty then attempt below state
        else nearest attempt (below + 1) state
      memo observer number (below + 1) pinned candidates
        (observer.note .call number (below + 1) pinned state)

/-- Place steps below a bookmark. -/
def place (passes : NodeTest → Nat → Bool) :
    List Step → Nat → Nat → Bool → Attempt FailureTable :=
  explore .plain passes

/-- The steps can be placed on a chain of some length, the first one on its
end. -/
def run (passes : NodeTest → Nat → Bool) (steps : List Step) (length : Nat) : Bool :=
  (place passes steps 0 length true (FailureTable.empty steps.length (length + 1))).1

end Search

/-- The node at a position of a chain passes the test; position 0 is the
document. -/
def NodeTest.passesAt (expander : Expander) (document : Json) (chain : Array Entry)
    (test : NodeTest) (position : Nat) : Bool :=
  match chain[position]? with
  | some entry => test.passes expander document entry
  | none => false

namespace Compiled

/-- The selector matches the node of a trace of the document. -/
def selects (expander : Expander) (document : Json) (query : Compiled) (trace : Trace) : Bool :=
  !query.isVacuous && !trace.isEmpty &&
    Search.run (NodeTest.passesAt expander document trace.reverse.toArray) query.steps
      trace.length

end Compiled

end LinkedPath
