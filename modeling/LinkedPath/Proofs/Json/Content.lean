import LinkedPath.Match.Content

/-!
# The content of an object

Where texts are compared an object stands for one value in it: for its list, if
that is an array, or else for its literal value or its identity, if that is no
object.  The texts of an object are those of its content
(`anyTextOfItem_object_eq`).  Objects with alike values under the keywords have
alike contents, if alike values have the same shape (`content?_rel`).
-/

namespace LinkedPath

namespace Json

/-- The value that an object stands for. -/
def content? (members : List (String × Json)) : Option Json :=
  ((members.lookup Keyword.list).filter isArray).or
    ((core? members).filter fun inner => !inner.isObject)

variable {members : List (String × Json)} {items : List Json} {inner : Json}

theorem content?_of_list (h : members.lookup Keyword.list = some (array items)) :
    content? members = some (array items) := by
  rw [content?, h]
  rfl

theorem content?_of_not_list (h : ∀ items, members.lookup Keyword.list ≠ some (array items)) :
    content? members = (core? members).filter fun inner => !inner.isObject := by
  have hnone : (members.lookup Keyword.list).filter isArray = none := by
    rw [Option.filter_eq_none_iff]
    intro value hvalue
    cases value with
    | array items => exact absurd hvalue (h items)
    | _ => exact Bool.false_ne_true
  rw [content?, hnone, Option.none_or]

theorem exists_mem_of_core? (h : core? members = some inner) : ∃ name, (name, inner) ∈ members := by
  rw [core?, Option.or_eq_some_iff] at h
  rcases h with hvalue | ⟨_, hid⟩
  · exact ⟨_, Keyed.mem_of_lookup_eq_some hvalue⟩
  · exact ⟨_, Keyed.mem_of_lookup_eq_some hid⟩

theorem exists_mem_of_content? (h : content? members = some inner) :
    ∃ name, (name, inner) ∈ members := by
  rw [content?, Option.or_eq_some_iff] at h
  rcases h with hlist | ⟨_, hcore⟩
  · exact ⟨_, Keyed.mem_of_lookup_eq_some (Option.filter_eq_some_iff.mp hlist).1⟩
  · exact exists_mem_of_core? (Option.filter_eq_some_iff.mp hcore).1

theorem listItems?_eq_some_iff :
    listItems? members = some items ↔ members.lookup Keyword.list = some (array items) := by
  unfold listItems?
  constructor
  · intro h
    split at h
    · rename_i found hlist
      cases h
      exact hlist
    · contradiction
  · intro h
    rw [h]

/-- An object is tested by its content. -/
theorem anyTextOfItem_object_eq (accepts : String → Bool) (members : List (String × Json)) :
    (object members).anyTextOfItem accepts =
      match content? members with
      | some inner => inner.anyText accepts
      | none => false := by
  rw [anyTextOfItem_object]
  cases hlist : listItems? members with
  | some items =>
      rw [content?_of_list (listItems?_eq_some_iff.mp hlist)]
      exact (anyText_array accepts items).symm
  | none =>
      have hnot : ∀ items, members.lookup Keyword.list ≠ some (array items) := by
        intro items hitems
        rw [listItems?_eq_some_iff.mpr hitems] at hlist
        contradiction
      rw [content?_of_not_list hnot]
      cases core? members with
      | none => rfl
      | some inner => cases hobject : inner.isObject <;> simp [hobject, Option.filter_some]

/-! ## Contents of alike objects -/

variable {alike : Json → Json → Prop} {others : List (String × Json)}

theorem rel_or {first second third fourth : Option Json} (h : Option.Rel alike first second)
    (helse : Option.Rel alike third fourth) :
    Option.Rel alike (first.or third) (second.or fourth) := by
  cases h with
  | some h => exact Option.Rel.some h
  | none => exact helse

theorem rel_filter {first second : Option Json} {keeps : Json → Bool}
    (hkeeps : ∀ value other, alike value other → keeps other = keeps value)
    (h : Option.Rel alike first second) :
    Option.Rel alike (first.filter keeps) (second.filter keeps) := by
  cases h with
  | none => exact Option.Rel.none
  | @some value other h =>
      rw [Option.filter_some, Option.filter_some, hkeeps value other h]
      split
      · exact Option.Rel.some h
      · exact Option.Rel.none

/-- Objects with alike values under all keywords have alike contents. -/
theorem content?_rel
    (hobject : ∀ value other, alike value other → other.isObject = value.isObject)
    (harray : ∀ value other, alike value other → other.isArray = value.isArray)
    (h : ∀ key, Keyword.isKeyword key = true →
      Option.Rel alike (members.lookup key) (others.lookup key)) :
    Option.Rel alike (content? members) (content? others) := by
  have hlist := h Keyword.list ((Keyword.isKeyword_iff _).mpr ⟨_, rfl⟩)
  have hvalue := h Keyword.value ((Keyword.isKeyword_iff _).mpr ⟨_, rfl⟩)
  have hid := h Keyword.id ((Keyword.isKeyword_iff _).mpr ⟨_, rfl⟩)
  refine rel_or (rel_filter harray hlist) (rel_filter ?_ (rel_or hvalue hid))
  intro value other halike
  rw [hobject value other halike]

end Json

end LinkedPath
