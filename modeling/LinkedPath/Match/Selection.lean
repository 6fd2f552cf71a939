import LinkedPath.Match.Search
import LinkedPath.Trace.Walk

/-!
# Selected values

A matching trace hands out the value of its node.  A selector that ends in the
type keyword hands out the type of the enclosing node when that node has one.
Some values are handed out raw and all others are open to further questions.
-/

namespace LinkedPath

namespace Compiled

/-- The type of the node around the node of a trace. -/
def enclosingType? (document : Json) (trace : Trace) : Option Json := do
  let parent ← trace.parent?
  let value ← parent.value? document
  value.member? Keyword.type

/-- The value that a trace hands out. -/
def resolve? (document : Json) (query : Compiled) (trace : Trace) : Option Json :=
  let own := trace.node?.bind fun entry => entry.value? document
  if query.selectsType then (enclosingType? document trace).or own else own

/-- The traces that the selector matches. -/
def matching (expander : Expander) (document : Json) (query : Compiled)
    (candidates : List Trace) : List Trace :=
  candidates.filter (query.selects expander document)

/-- The value that the first matching trace hands out. -/
def firstOf? (expander : Expander) (document : Json) (query : Compiled)
    (candidates : List Trace) : Option Json :=
  candidates.findSome? fun trace =>
    if query.selects expander document trace then query.resolve? document trace else none

/-- The values that the matching traces hand out, in document order. -/
def allOf (expander : Expander) (document : Json) (query : Compiled)
    (candidates : List Trace) : List Json :=
  (query.matching expander document candidates).filterMap (query.resolve? document)

/-- The value of the first matching trace, found on a walk that goes no
further. -/
def firstOnWalk? (expander : Expander) (document : Json) (query : Compiled) : Option Json :=
  walk document
    (fun found trace =>
      if query.selects expander document trace then .done (query.resolve? document trace)
      else .yield found)
    none

/-- A selection is handed out raw: there is nothing in it, or the selector ends
in a keyword whose value is final. -/
def isFinal (query : Compiled) (nothing : Bool) : Bool :=
  nothing || query.endsInFinal

end Compiled

end LinkedPath
