import LinkedPath.Trace.Walk

/-!
# Document order

The nodes of a document in document order, by recursion on the document.  A
spot is a value together with what the walk knows of its place; a chain is a
node on top of the nodes that enclose it, each with the spot where it was
found.  `documentOrder` lists the chains of all nodes: a node comes before the
nodes inside it, and a grouping array contributes the nodes of its items, which
take over its key.

The recursion treats members and items apart.  `ofSpot_eq` puts both in one
form, with the children of a spot as one list, and the facts about
`documentOrder` are derived from it by induction on spots.
-/

namespace LinkedPath

open Walk (Place)

/-- A value at a place of a document. -/
structure Spot where
  /-- The key under which the value stands; items take over that of their
  array. -/
  key : String
  /-- The position of the value in the array that holds it. -/
  index? : Option Nat
  /-- The tokens that lead to the value, the last one first. -/
  trail : List String
  value : Json

/-- A node that is visited, with the number of the visit. -/
structure Visit where
  id : Nat
  spot : Spot

/-- A node on top of the nodes that enclose it; the document itself comes
last. -/
abbrev Chain := List Visit

namespace Spot

def kind (spot : Spot) : Kind := Kind.of spot.key spot.value

/-- The spot of a document. -/
def root (document : Json) : Spot :=
  { key := Keyword.document, index? := none, trail := [], value := document }

/-- The spot of a child of a container with the given key and trail. -/
def inside (key : String) (trail : List String) : Place × Json → Spot
  | (.key name, value) => { key := name, index? := none, trail := name :: trail, value }
  | (.index position, value) =>
      { key, index? := some position, trail := Pointer.indexToken position :: trail, value }

/-- The spots directly inside a spot, in document order. -/
def children (spot : Spot) : List Spot :=
  (Walk.children spot.kind spot.value).map (inside spot.key spot.trail)

end Spot

/-- The entry of a visited node. -/
def Visit.entry (visit : Visit) : Entry :=
  { id := visit.id
    kind := visit.spot.kind
    key := visit.spot.key
    index? := visit.spot.index?
    trail := visit.spot.trail }

namespace Chain

/-- The entries of a chain. -/
def trace (chain : Chain) : Trace := chain.map Visit.entry

mutual

/-- The chains that a value contributes: its own, unless it is a grouping
array, and then those of the nodes inside it. -/
def ofValue (around : Chain) (key : String) (index? : Option Nat) (trail : List String)
    (next : Nat) : Json → List Chain
  | .array items =>
      if key = Keyword.type then
        [{ id := next, spot := { key, index?, trail, value := .array items } } :: around]
      else
        ofItems around key trail 0 next items
  | .object members =>
      let chain := { id := next, spot := { key, index?, trail, value := .object members } } :: around
      chain :: ofMembers chain trail (next + 1) members
  | value => [{ id := next, spot := { key, index?, trail, value } } :: around]

/-- The chains that the members of an object contribute. -/
def ofMembers (around : Chain) (trail : List String) (next : Nat) :
    List (String × Json) → List Chain
  | [] => []
  | (key, value) :: rest =>
      let first := ofValue around key none (key :: trail) next value
      first ++ ofMembers around trail (next + first.length) rest

/-- The chains that the items of a grouping array contribute. -/
def ofItems (around : Chain) (key : String) (trail : List String) (position next : Nat) :
    List Json → List Chain
  | [] => []
  | item :: rest =>
      let first := ofValue around key (some position)
        (Pointer.indexToken position :: trail) next item
      first ++ ofItems around key trail (position + 1) (next + first.length) rest

end

/-- The chain of a document itself. -/
def root (document : Json) : Chain := [{ id := 0, spot := Spot.root document }]

end Chain

/-- The chains of all nodes of a document, in document order. -/
def documentOrder (document : Json) : List Chain :=
  let root := Chain.root document
  root ::
    match document with
    | .array items => Chain.ofItems root Keyword.document [] 0 1 items
    | .object members => Chain.ofMembers root [] 1 members
    | _ => []

/-! ## One form for members and items -/

namespace Chain

/-- The chains that a spot contributes. -/
def ofSpot (around : Chain) (next : Nat) (spot : Spot) : List Chain :=
  ofValue around spot.key spot.index? spot.trail next spot.value

/-- The chains that some spots contribute in turn. -/
def ofSpots (around : Chain) : Nat → List Spot → List Chain
  | _, [] => []
  | next, spot :: rest =>
      ofSpot around next spot ++ ofSpots around (next + (ofSpot around next spot).length) rest

theorem ofMembers_eq (around : Chain) (key : String) (trail : List String) (next : Nat)
    (members : List (String × Json)) :
    ofMembers around trail next members =
      ofSpots around next
        ((members.map fun (key, value) => (Place.key key, value)).map (Spot.inside key trail)) := by
  induction members generalizing next with
  | nil => rw [ofMembers]; rfl
  | cons entry rest ih =>
      obtain ⟨name, value⟩ := entry
      rw [ofMembers, ih]
      rfl

theorem ofItems_eq (around : Chain) (key : String) (trail : List String) (position next : Nat)
    (items : List Json) :
    ofItems around key trail position next items =
      ofSpots around next
        (((items.zipIdx position).map fun (item, position) => (Place.index position, item)).map
          (Spot.inside key trail)) := by
  induction items generalizing position next with
  | nil => rw [ofItems]; rfl
  | cons item rest ih =>
      rw [ofItems, ih]
      rfl

/-- What a spot contributes depends on its kind alone, and on its children. -/
theorem ofSpot_eq (around : Chain) (next : Nat) (spot : Spot) :
    ofSpot around next spot =
      match spot.kind with
      | .leaf => [{ id := next, spot } :: around]
      | .array => ofSpots around next spot.children
      | .object =>
          ({ id := next, spot } :: around) ::
            ofSpots ({ id := next, spot } :: around) (next + 1) spot.children := by
  obtain ⟨key, index?, trail, value⟩ := spot
  cases value with
  | array items =>
      -- Whether an array groups its items depends on its key.
      by_cases hkey : key = Keyword.type
      · simp [ofSpot, ofValue, Spot.kind, Kind.of, hkey]
      · simp only [ofSpot, ofValue, Spot.kind, Kind.of, hkey, if_false, Spot.children,
          Walk.children]
        exact ofItems_eq around key trail 0 next items
  | object members =>
      simp only [ofSpot, ofValue, Spot.kind, Kind.of, Spot.children, Walk.children]
      rw [ofMembers_eq _ key]
  | _ => rfl

end Chain

theorem documentOrder_eq (document : Json) :
    documentOrder document =
      Chain.root document :: Chain.ofSpots (Chain.root document) 1 (Spot.root document).children := by
  cases document with
  | array items => exact congrArg _ (Chain.ofItems_eq _ Keyword.document [] 0 1 items)
  | object members => exact congrArg _ (Chain.ofMembers_eq _ Keyword.document [] 1 members)
  | _ => rfl

/-! ## Children and induction on spots -/

namespace Spot

theorem mem_children_of_member {spot : Spot} {members : List (String × Json)} {name : String}
    {value : Json} (hvalue : spot.value = .object members) (h : (name, value) ∈ members) :
    inside spot.key spot.trail (.key name, value) ∈ spot.children := by
  unfold children kind
  rw [hvalue]
  apply List.mem_map_of_mem
  exact List.mem_map.mpr ⟨(name, value), h, rfl⟩

theorem mem_children_of_item {spot : Spot} {items : List Json} {position : Nat} {item : Json}
    (hkind : spot.kind = .array) (hvalue : spot.value = .array items)
    (h : items[position]? = some item) :
    inside spot.key spot.trail (.index position, item) ∈ spot.children := by
  unfold children
  rw [hkind, hvalue]
  apply List.mem_map_of_mem
  exact List.mem_map.mpr ⟨(item, position), List.mem_zipIdx_iff_getElem?.mpr h, rfl⟩

/-- A child is a member of an object or an item of a grouping array. -/
theorem mem_children_cases {spot child : Spot} (h : child ∈ spot.children) :
    (∃ members name value, spot.value = .object members ∧ (name, value) ∈ members ∧
      child = inside spot.key spot.trail (.key name, value)) ∨
    (∃ items position item, spot.kind = .array ∧ spot.value = .array items ∧
      items[position]? = some item ∧
      child = inside spot.key spot.trail (.index position, item)) := by
  unfold children at h
  obtain ⟨⟨place, value⟩, hmem, rfl⟩ := List.mem_map.mp h
  unfold Walk.children at hmem
  split at hmem
  · rename_i members _ hvalue
    obtain ⟨⟨name, member⟩, hmember, heq⟩ := List.mem_map.mp hmem
    cases heq
    exact Or.inl ⟨members, name, _, hvalue, hmember, rfl⟩
  · rename_i items hkind hvalue
    obtain ⟨⟨item, position⟩, hitem, heq⟩ := List.mem_map.mp hmem
    cases heq
    exact Or.inr ⟨items, position, _, hkind, hvalue,
      List.mem_zipIdx_iff_getElem?.mp hitem, rfl⟩
  · simp at hmem

theorem sizeOf_lt_of_mem_children {spot child : Spot} (h : child ∈ spot.children) :
    sizeOf child.value < sizeOf spot.value := by
  rcases mem_children_cases h with ⟨members, name, value, hvalue, hmember, rfl⟩ |
    ⟨items, position, item, _, hvalue, hitem, rfl⟩
  · rw [hvalue]
    exact Json.sizeOf_value_lt hmember
  · rw [hvalue]
    exact Json.sizeOf_item_lt (List.mem_of_getElem? hitem)

/-- To prove something of every spot, assume it of the children of a spot. -/
theorem induction {motive : Spot → Prop}
    (step : ∀ spot, (∀ child ∈ spot.children, motive child) → motive spot) (spot : Spot) :
    motive spot :=
  step spot fun child _ => induction step child
termination_by sizeOf spot.value
decreasing_by exact sizeOf_lt_of_mem_children (by assumption)

end Spot

end LinkedPath
