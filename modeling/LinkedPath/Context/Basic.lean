import LinkedPath.Context.Keyword
import LinkedPath.Fault

/-!
# Contexts

A context maps short names, its aliases, to the beginnings of full names, and
may have a default vocabulary for names without an alias.  Aliases keep the
order in which they first appeared; no alias appears twice.
-/

namespace LinkedPath

/-- Aliases in order, and the default vocabulary. -/
structure Context where
  aliases : List (String × String)
  vocab? : Option String
  nodup : (Keyed.keys aliases).Nodup
  deriving DecidableEq, Repr

namespace Context

/-- The context without aliases and without a vocabulary. -/
def empty : Context := { aliases := [], vocab? := none, nodup := List.nodup_nil }

instance : Inhabited Context := ⟨empty⟩

/-- The context with another default vocabulary. -/
def withVocab (context : Context) (iri : String) : Context :=
  { context with vocab? := some iri }

/-- The context with one more alias; the vocabulary keyword sets the
vocabulary instead. -/
def withAlias (context : Context) (name iri : String) : Context :=
  if name = Keyword.vocab then
    context.withVocab iri
  else
    { context with
      aliases := Keyed.put name iri context.aliases
      nodup := Keyed.nodup_keys_put name iri context.nodup }

/-- The context with all given aliases, in order. -/
def ofEntries (entries : List (String × String)) : Context :=
  entries.foldl (fun context entry => context.withAlias entry.1 entry.2) empty

/-- An entry of a written context: a string under the vocabulary keyword or
under a name that is no keyword.  Everything else is passed over. -/
def entry? : String × Json → Option (String × String)
  | (key, .string iri) =>
      if key = Keyword.vocab ∨ Keyword.isKeyword key = false then some (key, iri) else none
  | _ => none

/-- Read a context from a JSON object. -/
def ofJson : Json → Except Fault Context
  | .object members => .ok (ofEntries (members.filterMap entry?))
  | other => .error (Fault.notAnObject other)

/-- The number of aliases; the vocabulary does not count. -/
def size (context : Context) : Nat := context.aliases.length

/-- Neither aliases nor a vocabulary. -/
def isEmpty (context : Context) : Bool :=
  context.aliases.isEmpty && context.vocab?.isNone

theorem ofJson_eq_error_iff (value : Json) :
    (∃ fault, ofJson value = .error fault) ↔ value.isObject = false := by
  cases value <;> simp [ofJson, Json.isObject]

end Context

end LinkedPath
