import Mathlib.Data.List.Induction
import Mathlib.Logic.Relation
import LinkedPath.Proofs.Json.Places
import LinkedPath.Proofs.Trace.Chains

/-!
# The spots of a document

The spots that a walk comes by are those reached from the document through
children.  In a well-formed document the trail of such a spot leads to its
value, and every place of the document is reached unless it lies inside an
array of types.  Of these spots the walk visits the ones that are no grouping
arrays.
-/

namespace LinkedPath

namespace Json

/-- The value at a place is the member of an object under the type keyword. -/
def HeldUnderType (document : Json) (pointer : Pointer) : Prop :=
  ∃ outer members, pointer = outer ++ [Keyword.type] ∧ document.at? outer = some (object members)

/-- There is an array at a place, and it is no array of types. -/
def IsGroupingArray (document : Json) (pointer : Pointer) : Prop :=
  (∃ items, document.at? pointer = some (array items)) ∧ ¬ document.HeldUnderType pointer

/-- A place lies strictly inside an array of types. -/
def InsideTypeArray (document : Json) (pointer : Pointer) : Prop :=
  ∃ outer inner items, pointer = outer ++ inner ∧ inner ≠ [] ∧
    document.at? outer = some (array items) ∧ document.HeldUnderType outer

/-- A node of a document: the document itself, and every value that is no
grouping array and does not lie inside an array of types. -/
def IsNode (document : Json) (pointer : Pointer) : Prop :=
  pointer = [] ∨
    ((document.at? pointer).isSome ∧ ¬ document.IsGroupingArray pointer ∧
      ¬ document.InsideTypeArray pointer)

end Json

namespace Spot

/-- The tokens that lead to a spot, the first one first. -/
def pointer (spot : Spot) : Pointer := spot.trail.reverse

/-- A spot is reached from another one through children. -/
def Reaches (outer inner : Spot) : Prop :=
  Relation.ReflTransGen (fun outer inner => inner ∈ outer.children) outer inner

theorem kind_eq_array_iff {spot : Spot} :
    spot.kind = .array ↔ (∃ items, spot.value = .array items) ∧ spot.key ≠ Keyword.type := by
  unfold kind
  cases spot.value with
  | array items => by_cases hkey : spot.key = Keyword.type <;> simp [Kind.of, hkey]
  | _ => simp [Kind.of]

theorem kind_eq_object_iff {spot : Spot} :
    spot.kind = .object ↔ ∃ members, spot.value = .object members := by
  unfold kind
  cases spot.value with
  | array items => by_cases hkey : spot.key = Keyword.type <;> simp [Kind.of, hkey]
  | _ => simp [Kind.of]

theorem pointer_member (spot : Spot) (name : String) (value : Json) :
    (inside spot.key spot.trail (.key name, value)).pointer = spot.pointer ++ [name] := by
  simp [pointer, inside]

theorem pointer_item (spot : Spot) (position : Nat) (item : Json) :
    (inside spot.key spot.trail (.index position, item)).pointer =
      spot.pointer ++ [Pointer.indexToken position] := by
  simp [pointer, inside]

/-- A child of a well-formed value is found under its token. -/
theorem child?_of_mem_children {spot child : Spot} (hwf : spot.value.WellFormed)
    (h : child ∈ spot.children) :
    ∃ token, child.pointer = spot.pointer ++ [token] ∧
      spot.value.child? token = some child.value := by
  rcases mem_children_cases h with ⟨members, name, value, hvalue, hmember, rfl⟩ |
    ⟨items, position, item, _, hvalue, hitem, rfl⟩
  · rw [hvalue] at hwf ⊢
    exact ⟨name, pointer_member spot name value, Json.child?_of_member hwf hmember⟩
  · rw [hvalue]
    exact ⟨_, pointer_item spot position item, Json.child?_of_item hitem⟩

/-- A child under the type keyword is a member: an item takes over the key of
its array, and that is another one. -/
theorem exists_member_of_mem_children {spot child : Spot} (h : child ∈ spot.children)
    (hkey : child.key = Keyword.type) :
    ∃ members, spot.value = .object members ∧ (Keyword.type, child.value) ∈ members := by
  rcases mem_children_cases h with ⟨members, name, value, hvalue, hmember, rfl⟩ |
    ⟨items, position, item, hkind, _, _, rfl⟩
  · obtain rfl : name = Keyword.type := hkey
    exact ⟨members, hvalue, hmember⟩
  · exact absurd hkey (kind_eq_array_iff.mp hkind).2

variable {document : Json} {spot : Spot}

/-- The tokens of a spot lead to its value. -/
theorem Reaches.at? (hwf : document.WellFormed) (h : (root document).Reaches spot) :
    document.at? spot.pointer = some spot.value := by
  induction h with
  | refl => rfl
  | tail _ hchild ih =>
      obtain ⟨token, hpointer, hvalue⟩ := child?_of_mem_children (hwf.at? ih) hchild
      rw [hpointer, Json.at?_concat, ih]
      exact hvalue

/-- A spot has the type keyword as its key only as a member of an object. -/
theorem Reaches.key_eq_type_iff (hwf : document.WellFormed) (h : (root document).Reaches spot) :
    spot.key = Keyword.type ↔ document.HeldUnderType spot.pointer := by
  cases h with
  | refl =>
      have hne : Keyword.document ≠ Keyword.type := by decide
      constructor
      · intro hkey
        exact absurd hkey hne
      · rintro ⟨outer, members, houter, _⟩
        simp [pointer, root] at houter
  | @tail parent _ hparent hchild =>
      have hat := Reaches.at? hwf hparent
      rcases mem_children_cases hchild with ⟨members, name, value, hvalue, _, rfl⟩ |
        ⟨items, position, item, hkind, hvalue, _, rfl⟩
      · rw [pointer_member]
        constructor
        · intro hkey
          refine ⟨parent.pointer, members, ?_, by rw [hat, hvalue]⟩
          rw [← hkey]
          rfl
        · rintro ⟨outer, _, houter, _⟩
          exact List.singleton_inj.mp (List.append_inj_right' houter rfl)
      · -- An item takes over the key of its array, which is not the type keyword.
        rw [pointer_item]
        constructor
        · intro hkey
          exact absurd hkey (kind_eq_array_iff.mp hkind).2
        · rintro ⟨outer, members, houter, hobject⟩
          obtain rfl := List.append_inj_left' houter rfl
          rw [hat, hvalue] at hobject
          simp at hobject

/-- The walk enters exactly the grouping arrays. -/
theorem Reaches.kind_eq_array_iff (hwf : document.WellFormed)
    (h : (root document).Reaches spot) :
    spot.kind = .array ↔ document.IsGroupingArray spot.pointer := by
  rw [Spot.kind_eq_array_iff, Json.IsGroupingArray, ne_eq, h.key_eq_type_iff hwf, h.at? hwf]
  simp

/-- The walk never enters an array of types. -/
theorem Reaches.not_insideTypeArray (hwf : document.WellFormed)
    (h : (root document).Reaches spot) : ¬ document.InsideTypeArray spot.pointer := by
  induction h with
  | refl =>
      rintro ⟨outer, inner, items, hsplit, hinner, _⟩
      have hnil : outer ++ inner = [] := hsplit.symm
      exact hinner (List.append_eq_nil_iff.mp hnil).2
  | @tail parent child hparent hchild ih =>
      rintro ⟨outer, inner, items, hsplit, hinner, harray, hheld⟩
      obtain ⟨token, hpointer, _⟩ := child?_of_mem_children (hwf.at? (Reaches.at? hwf hparent)) hchild
      obtain ⟨front, last, rfl⟩ : ∃ front last, inner = front ++ [last] :=
        ⟨inner.dropLast, inner.getLast hinner, (List.dropLast_concat_getLast hinner).symm⟩
      rw [hpointer, ← List.append_assoc] at hsplit
      have hfront : parent.pointer = outer ++ front := List.append_inj_left' hsplit rfl
      by_cases hempty : front = []
      · -- The parent itself would be the array of types, and that has no children.
        rw [hempty, List.append_nil] at hfront
        rw [← hfront] at harray hheld
        have hkey := (Reaches.key_eq_type_iff hwf hparent).mpr hheld
        rw [Reaches.at? hwf hparent, Option.some.injEq] at harray
        rcases mem_children_cases hchild with ⟨members, _, _, hvalue, _⟩ | ⟨_, _, _, hkind, _⟩
        · rw [harray] at hvalue
          cases hvalue
        · exact (Spot.kind_eq_array_iff.mp hkind).2 hkey
      · exact ih ⟨outer, front, items, hfront, hempty, harray, hheld⟩

/-- Every place that is not inside an array of types is reached. -/
theorem exists_reaches {pointer : Pointer} {value : Json}
    (hvalue : document.at? pointer = some value) (hwf : document.WellFormed)
    (houtside : ¬ document.InsideTypeArray pointer) :
    ∃ spot, (root document).Reaches spot ∧ spot.pointer = pointer ∧ spot.value = value := by
  -- The last token goes first, as the spots are reached from the outside.
  induction pointer using List.reverseRecOn generalizing value with
  | nil =>
      obtain rfl : document = value := by simpa using hvalue
      exact ⟨root document, Relation.ReflTransGen.refl, rfl, rfl⟩
  | append_singleton outer token ih =>
      rw [Json.at?_concat] at hvalue
      obtain ⟨inner, hinner, hchild⟩ := Option.bind_eq_some_iff.mp hvalue
      have houter : ¬ document.InsideTypeArray outer := by
        rintro ⟨array, rest, items, rfl, _, harray, hheld⟩
        exact houtside ⟨array, rest ++ [token], items, by simp, by simp, harray, hheld⟩
      obtain ⟨spot, hspot, rfl, rfl⟩ := ih hinner houter
      rcases Json.child?_cases hchild with ⟨members, hmembers, hlookup⟩ |
        ⟨items, position, hitems, rfl, hitem⟩
      · have hmem := mem_children_of_member hmembers (Keyed.mem_of_lookup_eq_some hlookup)
        exact ⟨_, hspot.tail hmem, pointer_member spot token value, rfl⟩
      · -- The array groups its items, or the place would be inside an array of types.
        have hkind : spot.kind = .array := by
          refine Spot.kind_eq_array_iff.mpr ⟨⟨items, hitems⟩, ?_⟩
          intro hkey
          have hheld := (hspot.key_eq_type_iff hwf).mp hkey
          exact houtside ⟨spot.pointer, [_], items, rfl, by simp, by rw [hinner, hitems], hheld⟩
        have hmem := mem_children_of_item hkind hitems hitem
        exact ⟨_, hspot.tail hmem, pointer_item spot position value, rfl⟩

end Spot

end LinkedPath
