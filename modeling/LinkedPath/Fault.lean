import LinkedPath.Json.Basic

/-!
# Faults

Compiling, walking and matching never fail.  What can go wrong is the input at
the border: a context that is no object, a text that is no document, or a name
that a session does not know.
-/

namespace LinkedPath

/-- A reason why a request is refused. -/
inductive Fault
  /-- The context cannot be used. -/
  | invalidContext (detail : String)
  /-- The document cannot be used. -/
  | invalidDocument (detail : String)
  /-- A text is not valid JSON. -/
  | malformedJson
  /-- A session holds no node of this name. -/
  | unknownNode (name : String)
  /-- A session holds no factory of this name. -/
  | unknownFactory (name : String)
  deriving DecidableEq, Repr

namespace Fault

/-- The wording of a fault. -/
def message : Fault → String
  | invalidContext detail => "Invalid context: " ++ detail
  | invalidDocument detail => "Invalid document: " ++ detail
  | malformedJson => "JSON error"
  | unknownNode name => "Unknown node: " ++ name
  | unknownFactory name => "Unknown factory: " ++ name

/-- The fault of a context that is not an object. -/
def notAnObject (value : Json) : Fault :=
  invalidContext ("expected a JSON object, got " ++ value.kindName)

end Fault

end LinkedPath
