import LinkedPath.Json.Number
import LinkedPath.Keyed

/-!
# Documents

A document is a JSON value whose objects keep their members in order.  A
member list may be any keyed list; `WellFormed` says that no object repeats a
key, which holds of every document that was read from a text.
-/

namespace LinkedPath

/-- A JSON value. -/
inductive Json
  | null
  | bool (value : Bool)
  | number (value : Number)
  | string (value : String)
  | array (items : List Json)
  | object (members : List (String × Json))
  deriving Inhabited, Repr

namespace Json

/-- The word for the kind of a value. -/
def kindName : Json → String
  | null => "null"
  | bool _ => "boolean"
  | number _ => "number"
  | string _ => "string"
  | array _ => "array"
  | object _ => "object"

/-- The value is `null`. -/
def isNull : Json → Bool
  | null => true
  | _ => false

/-- The value is an object. -/
def isObject : Json → Bool
  | object _ => true
  | _ => false

/-- The value is an array. -/
def isArray : Json → Bool
  | array _ => true
  | _ => false

/-- The member of an object under a key. -/
def member? (value : Json) (key : String) : Option Json :=
  match value with
  | object members => members.lookup key
  | _ => none

/-- The number as a natural, when it is one. -/
def nat? : Json → Option Nat
  | number (.integer value) => if 0 ≤ value then some value.toNat else none
  | _ => none

/-! ## Deciding equality -/

mutual

/-- The values are the same. -/
def same : Json → Json → Bool
  | null, null => true
  | bool value, bool other => value == other
  | number value, number other => value == other
  | string value, string other => value == other
  | array items, array others => sameItems items others
  | object members, object others => sameMembers members others
  | _, _ => false

/-- The items are the same one by one. -/
def sameItems : List Json → List Json → Bool
  | [], [] => true
  | item :: rest, other :: others => same item other && sameItems rest others
  | _, _ => false

/-- The members are the same one by one. -/
def sameMembers : List (String × Json) → List (String × Json) → Bool
  | [], [] => true
  | (key, value) :: rest, (name, other) :: others =>
      key == name && same value other && sameMembers rest others
  | _, _ => false

end

mutual

theorem same_iff : ∀ value other : Json, same value other = true ↔ value = other := by
  intro value other
  cases value <;> cases other <;> simp [same, sameItems_iff, sameMembers_iff]

theorem sameItems_iff : ∀ items others : List Json, sameItems items others = true ↔ items = others
  | [], [] | [], _ :: _ | _ :: _, [] => by simp [sameItems]
  | item :: rest, other :: others => by
      simp [sameItems, same_iff item other, sameItems_iff rest others]

theorem sameMembers_iff : ∀ members others : List (String × Json),
    sameMembers members others = true ↔ members = others
  | [], [] | [], _ :: _ | _ :: _, [] => by simp [sameMembers]
  | (key, value) :: rest, (name, other) :: others => by
      simp [sameMembers, same_iff value other, sameMembers_iff rest others]

end

instance : DecidableEq Json := fun value other => decidable_of_iff _ (same_iff value other)

/-! ## Documents without repeated keys -/

mutual

/-- No object in the value repeats a key. -/
def WellFormed : Json → Prop
  | array items => AllWellFormed items
  | object members => (Keyed.keys members).Nodup ∧ MembersWellFormed members
  | _ => True

/-- Every item is well formed. -/
def AllWellFormed : List Json → Prop
  | [] => True
  | item :: rest => WellFormed item ∧ AllWellFormed rest

/-- The value of every member is well formed. -/
def MembersWellFormed : List (String × Json) → Prop
  | [] => True
  | (_, value) :: rest => WellFormed value ∧ MembersWellFormed rest

end

theorem allWellFormed_iff (items : List Json) :
    AllWellFormed items ↔ ∀ item ∈ items, WellFormed item := by
  induction items with
  | nil => simp [AllWellFormed]
  | cons item rest ih => simp [AllWellFormed, ih]

theorem membersWellFormed_iff (members : List (String × Json)) :
    MembersWellFormed members ↔ ∀ entry ∈ members, WellFormed entry.2 := by
  induction members with
  | nil => simp [MembersWellFormed]
  | cons entry rest ih =>
      obtain ⟨key, value⟩ := entry
      simp [MembersWellFormed, ih]

theorem sizeOf_item_lt {item : Json} {items : List Json} (h : item ∈ items) :
    sizeOf item < sizeOf (array items) := by
  have := List.sizeOf_lt_of_mem h
  simp only [array.sizeOf_spec]
  omega

theorem sizeOf_value_lt {key : String} {value : Json} {members : List (String × Json)}
    (h : (key, value) ∈ members) : sizeOf value < sizeOf (object members) := by
  have := List.sizeOf_lt_of_mem h
  simp only [Prod.mk.sizeOf_spec, object.sizeOf_spec] at *
  omega

theorem sizeOf_lookup_lt {key : String} {value : Json} {members : List (String × Json)}
    (h : members.lookup key = some value) : sizeOf value < sizeOf (object members) :=
  sizeOf_value_lt (Keyed.mem_of_lookup_eq_some h)

end Json

end LinkedPath
