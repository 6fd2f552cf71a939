import LinkedPath.Proofs.Context.Expansion
import LinkedPath.Proofs.Json.Places

/-!
# Objects and member names of a document

Statements about all objects of a document, wherever they stand.  What holds of
all objects of a document holds of all objects of its parts, and it can be
checked from the inside out, with the parts of a value before the value.
-/

namespace LinkedPath

namespace Json

/-- There is an object with these members somewhere in the document. -/
def HasObject (document : Json) (members : List (String × Json)) : Prop :=
  ∃ pointer, document.at? pointer = some (object members)

/-- Some object of the document has a member of this name. -/
def HasMember (document : Json) (name : String) : Prop :=
  ∃ members, document.HasObject members ∧ name ∈ Keyed.keys members

/-- All objects of the document have a property. -/
def EveryObject (property : List (String × Json) → Prop) (document : Json) : Prop :=
  ∀ members, document.HasObject members → property members

/-- No member name is the name of the document or expands to it. -/
def SparesDocumentName (expander : Expander) (document : Json) : Prop :=
  document.EveryObject fun members => ∀ name ∈ Keyed.keys members,
    name ≠ Keyword.document ∧ expander.expand name ≠ Keyword.document

variable {document inner : Json} {pointer : Pointer} {property : List (String × Json) → Prop}

/-! ## Parts of a document -/

theorem HasObject.of_at? (h : document.at? pointer = some inner)
    {members : List (String × Json)} (hobject : inner.HasObject members) :
    document.HasObject members := by
  obtain ⟨rest, hrest⟩ := hobject
  refine ⟨pointer ++ rest, ?_⟩
  rw [at?_append, h]
  exact hrest

theorem EveryObject.at? (h : document.EveryObject property)
    (hinner : document.at? pointer = some inner) : inner.EveryObject property :=
  fun members hobject => h members (hobject.of_at? hinner)

theorem EveryObject.child? (h : document.EveryObject property) {token : String}
    (hinner : document.child? token = some inner) : inner.EveryObject property := by
  have hat : document.at? [token] = some inner := by
    rw [Json.at?, hinner]
    rfl
  exact h.at? hat

/-- An object of a document is the document itself or an object of one of its
children. -/
theorem HasObject.cases {members : List (String × Json)} (h : document.HasObject members) :
    document = object members ∨
      ∃ token child, document.child? token = some child ∧ child.HasObject members := by
  obtain ⟨pointer, hobject⟩ := h
  cases pointer with
  | nil => exact Or.inl (Option.some.inj hobject)
  | cons token rest =>
      obtain ⟨child, hchild, hobject⟩ := Option.bind_eq_some_iff.mp hobject
      exact Or.inr ⟨token, child, hchild, rest, hobject⟩

/-! ## From the inside out -/

theorem everyObject_object {members : List (String × Json)} (hself : property members)
    (h : ∀ entry ∈ members, entry.2.EveryObject property) :
    (object members).EveryObject property := by
  intro found hfound
  rcases hfound.cases with hsame | ⟨token, child, hchild, hobject⟩
  · cases hsame
    exact hself
  · exact h (token, child) (Keyed.mem_of_lookup_eq_some hchild) found hobject

theorem everyObject_array {items : List Json} (h : ∀ item ∈ items, item.EveryObject property) :
    (array items).EveryObject property := by
  intro found hfound
  rcases hfound.cases with hsame | ⟨token, child, hchild, hobject⟩
  · cases hsame
  · rcases child?_cases hchild with ⟨_, heq, _⟩ | ⟨_, position, heq, _, hitem⟩
    · cases heq
    · cases heq
      exact h child (List.mem_of_getElem? hitem) found hobject

/-- There is no object in a scalar. -/
theorem everyObject_scalar {value : Json} (hobject : value.isObject = false)
    (harray : value.isArray = false) : value.EveryObject property := by
  intro found hfound
  rcases hfound.cases with hsame | ⟨token, child, hchild, _⟩
  · rw [hsame] at hobject
    contradiction
  · cases value with
    | object members => contradiction
    | array items => contradiction
    | _ => contradiction

/-- To prove something of every value, assume it of its items and members. -/
theorem induction {motive : Json → Prop}
    (onArray : ∀ items, (∀ item ∈ items, motive item) → motive (array items))
    (onObject : ∀ members, (∀ entry ∈ members, motive entry.2) → motive (object members))
    (onScalar : ∀ value, value.isObject = false → value.isArray = false → motive value)
    (value : Json) : motive value :=
  match value with
  | array items => onArray items fun item _ => induction onArray onObject onScalar item
  | object members => onObject members fun entry _ => induction onArray onObject onScalar entry.2
  | null => onScalar null rfl rfl
  | bool flag => onScalar (bool flag) rfl rfl
  | number value => onScalar (number value) rfl rfl
  | string text => onScalar (string text) rfl rfl
termination_by sizeOf value
decreasing_by
  · exact sizeOf_item_lt (by assumption)
  · exact sizeOf_value_lt (by assumption)

/-! ## The name of the document -/

/-- The name of the document is not accepted under any member name. -/
theorem SparesDocumentName.accepts_eq_false {expander : Expander}
    (h : document.SparesDocumentName expander) {name : String} (hmember : document.HasMember name) :
    expander.accepts name Keyword.document = false := by
  obtain ⟨members, hobject, hmem⟩ := hmember
  obtain ⟨hname, hexpand⟩ := h members hobject name hmem
  rw [← Bool.not_eq_true, Expander.accepts_iff]
  exact not_or.mpr ⟨hname, hexpand⟩

end Json

end LinkedPath
