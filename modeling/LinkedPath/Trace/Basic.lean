import LinkedPath.Context.Keyword
import LinkedPath.Json.Pointer

/-!
# Traces

The nodes of a document are its objects and its leaves; an array only groups
its items, which take over the key under which the array stands.  A trace is a
node together with the nodes that enclose it.
-/

namespace LinkedPath

/-- The kinds of values that a walk tells apart. -/
inductive Kind
  /-- An object: its members are nodes inside it. -/
  | object
  /-- An array: it groups its items and is no node itself. -/
  | array
  /-- A value without nodes inside it. -/
  | leaf
  deriving DecidableEq, Repr

namespace Kind

/-- The kind of a value found under a key.  An array of types is one value. -/
def of (key : String) : Json → Kind
  | .array _ => if key = Keyword.type then leaf else array
  | .object _ => object
  | _ => leaf

/-- The word for a kind. -/
def word : Kind → String
  | object => "object"
  | array => "array"
  | leaf => "leaf"

end Kind

/-- One node of a document. -/
structure Entry where
  /-- The number of the visit; the document itself is 0. -/
  id : Nat
  kind : Kind
  /-- The key under which the node stands; the items of an array have the key
  of the array. -/
  key : String
  /-- The position of the node in the array that holds it. -/
  index? : Option Nat
  /-- The tokens that lead to the node, the last one first; so the nodes inside
  a node share its trail. -/
  trail : List String
  deriving DecidableEq, Repr

/-- The place of a node in its document. -/
def Entry.pointer (entry : Entry) : Pointer := entry.trail.reverse

/-- The value of a node in a document. -/
def Entry.value? (entry : Entry) (document : Json) : Option Json :=
  document.at? entry.pointer

/-- A node and the nodes that enclose it: the node comes first, the document
itself last. -/
abbrev Trace := List Entry

namespace Trace

/-- The node of a trace. -/
def node? (trace : Trace) : Option Entry := trace.head?

/-- The node right around the node of a trace. -/
def parent? (trace : Trace) : Option Entry := trace.tail.head?

end Trace

end LinkedPath
