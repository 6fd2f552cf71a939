import LinkedPath.Query.Step

/-!
# Contents of values

A predicate compares texts, and a value may stand for several: a scalar stands
for its own text, an array for what its items stand for, a list object for the
items of its list, and any other object for its literal value or else for its
identity.  `anyText` tests whether some text that a value stands for is
accepted, `anyTextOfItem` does so for the item of an array, where a further
array stands for nothing.
-/

namespace LinkedPath

namespace Json

/-- The value that an object stands for: its literal value, or else its
identity. -/
def core? (members : List (String × Json)) : Option Json :=
  (members.lookup Keyword.value).or (members.lookup Keyword.id)

/-- The items of an object that is a list. -/
def listItems? (members : List (String × Json)) : Option (List Json) :=
  match members.lookup Keyword.list with
  | some (array items) => some items
  | _ => none

theorem sizeOf_core_lt {members : List (String × Json)} {value : Json}
    (h : core? members = some value) : sizeOf value < sizeOf (object members) := by
  unfold core? at h
  cases hvalue : members.lookup Keyword.value with
  | none =>
      rw [hvalue, Option.none_or] at h
      exact sizeOf_lookup_lt h
  | some found =>
      rw [hvalue, Option.some_or] at h
      cases h
      exact sizeOf_lookup_lt hvalue

theorem sizeOf_listItem_lt {members : List (String × Json)} {items : List Json} {item : Json}
    (h : listItems? members = some items) (hitem : item ∈ items) :
    sizeOf item < sizeOf (object members) := by
  unfold listItems? at h
  split at h
  · rename_i found hlookup
    cases h
    exact Nat.lt_trans (sizeOf_item_lt hitem) (sizeOf_lookup_lt hlookup)
  · contradiction

mutual

/-- Some text that the value stands for is accepted. -/
def anyText (accepts : String → Bool) (value : Json) : Bool :=
  match value with
  | array items => items.attach.any fun ⟨item, _⟩ => anyTextOfItem accepts item
  | other => anyTextOfItem accepts other
termination_by (sizeOf value, 1)
decreasing_by
  · exact Prod.Lex.left _ _ (sizeOf_item_lt (by assumption))
  · exact Prod.Lex.right _ (by omega)

/-- Some text that the value stands for as the item of an array is accepted. -/
def anyTextOfItem (accepts : String → Bool) (value : Json) : Bool :=
  match value with
  | null => accepts "null"
  | bool flag => accepts (if flag then "true" else "false")
  | number value => accepts value.text
  | string value => accepts value
  | array _ => false
  | object members =>
      match _hlist : listItems? members with
      | some items => items.attach.any fun ⟨item, _⟩ => anyTextOfItem accepts item
      | none =>
          match _hcore : core? members with
          | some inner => !inner.isObject && anyText accepts inner
          | none => false
termination_by (sizeOf value, 0)
decreasing_by
  · exact Prod.Lex.left _ _ (sizeOf_listItem_lt _hlist (by assumption))
  · exact Prod.Lex.left _ _ (sizeOf_core_lt _hcore)

end

theorem anyText_array (accepts : String → Bool) (items : List Json) :
    anyText accepts (array items) = items.any (anyTextOfItem accepts) := by
  rw [anyText]
  simp

theorem anyText_of_not_array (accepts : String → Bool) {value : Json}
    (h : value.isArray = false) : anyText accepts value = anyTextOfItem accepts value := by
  cases value with
  | array items => simp [isArray] at h
  | _ => rw [anyText]; simp

theorem anyTextOfItem_object (accepts : String → Bool) (members : List (String × Json)) :
    anyTextOfItem accepts (object members) =
      match listItems? members with
      | some items => items.any (anyTextOfItem accepts)
      | none =>
          match core? members with
          | some inner => !inner.isObject && anyText accepts inner
          | none => false := by
  rw [anyTextOfItem]
  split
  · rename_i items hitems
    simp [hitems]
  · rename_i hnone
    simp only [hnone]
    split
    · rename_i inner hinner
      simp [hinner]
    · rename_i hcore
      simp [hcore]

end Json

namespace Predicate

/-- A text of a document is the expected one.  An expanded predicate takes both
spellings of a name. -/
def acceptsText (expander : Expander) (predicate : Predicate) (text : String) : Bool :=
  if predicate.expanded then
    expander.accepts text predicate.expected
  else
    text == predicate.expected

/-- The predicate holds of a node: it is an object with a member of that name
that stands for an accepted text. -/
def holds (expander : Expander) (predicate : Predicate) : Json → Bool
  | .object members =>
      members.any fun (key, value) =>
        expander.accepts key predicate.key && value.anyText (predicate.acceptsText expander)
  | _ => false

end Predicate

end LinkedPath
