/-!
# Keywords

Names that begin with an at sign belong to the structure of a document and are
never expanded.  One more reserved name stands for the document itself.
-/

namespace LinkedPath.Keyword

/-- The identity of a node. -/
def id : String := "@id"

/-- The type of a node. -/
def type : String := "@type"

/-- An ordered list. -/
def list : String := "@list"

/-- An index annotation. -/
def index : String := "@index"

/-- A literal value. -/
def value : String := "@value"

/-- The default vocabulary of a context. -/
def vocab : String := "@vocab"

/-- The context that a document carries. -/
def context : String := "@context"

/-- The name of the root of every document. -/
def document : String := "#document"

/-- The keywords whose selection is handed out as it is. -/
def finals : List String := [id, index, value, type]

/-- A name that belongs to the structure of a document. -/
def isKeyword (name : String) : Bool := name.startsWith "@"

theorem isKeyword_iff (name : String) :
    isKeyword name = true ↔ ∃ rest, name.toList = '@' :: rest := by
  rw [isKeyword, String.startsWith_string_iff]
  constructor
  · rintro ⟨rest, h⟩
    exact ⟨rest, h.symm⟩
  · rintro ⟨rest, h⟩
    exact ⟨rest, h.symm⟩

end LinkedPath.Keyword
