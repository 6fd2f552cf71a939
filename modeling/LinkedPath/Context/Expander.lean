import LinkedPath.Context.Basic
import LinkedPath.Text.Affix

/-!
# Name expansion

A name expands into the full name that its alias or the default vocabulary
gives it.  Keywords stay as they are, the first alias in context order wins,
and the vocabulary is for names without a colon.  Names of a document may be
written short or in full, so `accepts` takes both spellings.
-/

namespace LinkedPath

/-- A context prepared for expansion: each alias with its colon, and the
default vocabulary. -/
structure Expander where
  heads : List (String × String)
  vocab? : Option String
  deriving DecidableEq, Repr, Inhabited

/-- The expander of a context. -/
def Context.expander (context : Context) : Expander :=
  { heads := context.aliases.map fun entry => (entry.1 ++ ":", entry.2)
    vocab? := context.vocab? }

namespace Expander

/-- A name that has neither an alias nor a scheme in front. -/
def isBare (name : String) : Bool :=
  !name.isEmpty && !name.toList.contains ':'

/-- The first head that starts the name gives the beginning of the full name;
also what is left of the name. -/
def splitHead? (name : String) : List (String × String) → Option (String × String)
  | [] => none
  | (head, iri) :: rest =>
      match Text.stripLead? head name with
      | some tail => some (iri, tail)
      | none => splitHead? name rest

/-- The beginning that expansion gives to a name and the part of the name that
stays, when the name expands at all. -/
def split? (expander : Expander) (name : String) : Option (String × String) :=
  if Keyword.isKeyword name then
    none
  else
    match splitHead? name expander.heads with
    | some found => some found
    | none =>
        if isBare name then expander.vocab?.map fun vocab => (vocab, name) else none

/-- The full name of a name. -/
def expand (expander : Expander) (name : String) : String :=
  match expander.split? name with
  | some (iri, tail) => iri ++ tail
  | none => name

/-- A name of a document stands for the full name: it is spelled so, or its
expansion is, which is tested without building the expansion. -/
def accepts (expander : Expander) (name full : String) : Bool :=
  name == full ||
    match expander.split? name with
    | some (iri, tail) => Text.stripLead? iri full == some tail
    | none => false

end Expander

end LinkedPath
