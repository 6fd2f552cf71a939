import LinkedPath.Proofs.Trace.Lines
import LinkedPath.Proofs.Trace.TopLevel

/-!
# A value as a document of its own

The value of a node can be taken out and walked as a document.  Below its root
the walk comes by the same spots with longer trails, so the chains of the
value, put on top of the chain of the node, are the chains of the document that
go through the node (`append_map_under`, `exists_map_under`).  The root is
another matter: there the key changes to the name of the document, and therefore
arrays are left out, whose items take over the key.
-/

namespace LinkedPath

namespace Spot

/-- The spot behind some more tokens, the last one of these first. -/
def under (trail : List String) (spot : Spot) : Spot :=
  { spot with trail := spot.trail ++ trail }

@[simp] theorem value_under (trail : List String) (spot : Spot) :
    (spot.under trail).value = spot.value := rfl

@[simp] theorem kind_under (trail : List String) (spot : Spot) :
    (spot.under trail).kind = spot.kind := rfl

theorem pointer_under (trail : List String) (spot : Spot) :
    (spot.under trail).pointer = trail.reverse ++ spot.pointer := by
  simp [pointer, under]

theorem under_inside (key : String) (trail outer : List String) (child : Walk.Place × Json) :
    (inside key trail child).under outer = inside key (trail ++ outer) child := by
  obtain ⟨place, value⟩ := child
  cases place <;> rfl

theorem children_under (trail : List String) (spot : Spot) :
    (spot.under trail).children = spot.children.map (under trail) := by
  unfold children
  rw [List.map_map, kind_under, value_under]
  apply List.map_congr_left
  intro child _
  exact (under_inside spot.key spot.trail trail child).symm

variable {document : Json} {spot outer inner : Spot}

/-- What is inside the value of a spot is inside the spot, unless that is an
array. -/
theorem children_eq_map_under (harray : spot.value.isArray = false) :
    spot.children = (root spot.value).children.map (under spot.trail) := by
  obtain ⟨key, index?, trail, value⟩ := spot
  cases value with
  | array items => contradiction
  | object members =>
      -- The members have their own keys, so that of the object is of no account.
      unfold children
      rw [List.map_map]
      show ((members.map _).map _) = ((members.map _).map _)
      rw [List.map_map, List.map_map]
      apply List.map_congr_left
      rintro ⟨name, value⟩ _
      rfl
  | _ => rfl

/-- When the children of two spots correspond, so does everything directly
inside them. -/
theorem directlyInside_iff_of_children {first second : Spot} {trail : List String}
    (h : second.children = first.children.map (under trail)) :
    second.DirectlyInside inner ↔
      ∃ spot, first.DirectlyInside spot ∧ spot.under trail = inner := by
  constructor
  · intro hinside
    induction hinside with
    | child hchild =>
        rw [h] at hchild
        obtain ⟨spot, hspot, rfl⟩ := List.mem_map.mp hchild
        exact ⟨spot, .child hspot, rfl⟩
    | item _ hkind hchild ih =>
        obtain ⟨array, harray, rfl⟩ := ih
        rw [children_under] at hchild
        obtain ⟨spot, hspot, rfl⟩ := List.mem_map.mp hchild
        exact ⟨spot, .item harray hkind hspot, rfl⟩
  · rintro ⟨spot, hinside, rfl⟩
    induction hinside with
    | child hchild =>
        refine .child ?_
        rw [h]
        exact List.mem_map_of_mem hchild
    | item _ hkind hchild ih =>
        refine .item ih hkind ?_
        rw [children_under]
        exact List.mem_map_of_mem hchild

theorem directlyInside_under_iff {trail : List String} :
    (outer.under trail).DirectlyInside inner ↔
      ∃ spot, outer.DirectlyInside spot ∧ spot.under trail = inner :=
  directlyInside_iff_of_children (children_under trail outer)

theorem directlyInside_root_iff (harray : outer.value.isArray = false) :
    outer.DirectlyInside inner ↔
      ∃ spot, (root outer.value).DirectlyInside spot ∧ spot.under outer.trail = inner :=
  directlyInside_iff_of_children (children_eq_map_under harray)

theorem DirectlyInside.length_pointer_lt (h : outer.DirectlyInside inner) :
    outer.pointer.length < inner.pointer.length := by
  induction h with
  | child hchild =>
      rw [length_pointer_of_mem_children hchild]
      exact Nat.lt_succ_self _
  | item _ _ hchild ih =>
      rw [length_pointer_of_mem_children hchild]
      exact Nat.lt_succ_of_lt ih

end Spot

/-- The visit behind some more tokens. -/
def Visit.under (trail : List String) (visit : Visit) : Visit :=
  { visit with spot := visit.spot.under trail }

namespace Chain

variable {document : Json} {chain : Chain}

theorem line_map_under (trail : List String) (chain : Chain) :
    line (chain.map (Visit.under trail)) = chain.line.map (Spot.under trail) := by
  rw [line, line, List.map_map, List.map_map]
  rfl

theorem Linked.tail {visit outer : Visit} {around : Chain}
    (h : Linked document (visit :: outer :: around)) : Linked document (outer :: around) := by
  cases h with
  | node haround _ _ => exact haround

theorem Linked.of_append {front : Chain} {visit : Visit} {around : Chain}
    (h : Linked document (front ++ visit :: around)) : Linked document (visit :: around) := by
  induction front with
  | nil => exact h
  | cons first rest ih =>
      cases rest with
      | nil => exact ih h.tail
      | cons second more => exact ih h.tail

/-- The last node of a chain is the document. -/
theorem Linked.exists_append_root (h : Linked document chain) :
    ∃ front, chain = front ++ Chain.root document := by
  induction h with
  | root => exact ⟨[], rfl⟩
  | @node visit _ _ _ _ _ ih =>
      obtain ⟨front, hfront⟩ := ih
      exact ⟨visit :: front, congrArg (List.cons visit) hfront⟩

variable {visit : Visit} {around inner front : Chain}

/-- A chain of the value, put on top of the chain of the node, is a chain of the
document. -/
theorem Linked.append_map_under (haround : Linked document (visit :: around))
    (harray : visit.spot.value.isArray = false)
    (h : Linked visit.spot.value (inner ++ Chain.root visit.spot.value)) :
    Linked document (inner.map (Visit.under visit.spot.trail) ++ visit :: around) := by
  induction inner with
  | nil => exact haround
  | cons first rest ih =>
      cases rest with
      | nil =>
          -- The root of the value gives way to the node.
          cases h with
          | node _ hkind hinside =>
              exact .node haround hkind
                ((Spot.directlyInside_root_iff harray).mpr ⟨first.spot, hinside, rfl⟩)
      | cons second more =>
          cases h with
          | node hrest hkind hinside =>
              exact .node (ih hrest) hkind
                (Spot.directlyInside_under_iff.mpr ⟨first.spot, hinside, rfl⟩)

/-- What stands on top of the chain of a node is a chain of its value. -/
theorem Linked.exists_map_under (harray : visit.spot.value.isArray = false)
    (h : Linked document (front ++ visit :: around)) :
    ∃ inner : Chain, Linked visit.spot.value (inner ++ Chain.root visit.spot.value) ∧
      inner.map (Visit.under visit.spot.trail) = front := by
  induction front with
  | nil => exact ⟨[], .root, rfl⟩
  | cons first rest ih =>
      cases rest with
      | nil =>
          cases h with
          | node _ hkind hinside =>
              obtain ⟨spot, hspot, hunder⟩ := (Spot.directlyInside_root_iff harray).mp hinside
              rw [← hunder, Spot.kind_under] at hkind
              refine ⟨[{ id := first.id, spot }], .node .root hkind hspot, ?_⟩
              rw [List.map_singleton, Visit.under, hunder]
      | cons second more =>
          cases h with
          | node hrest hkind hinside =>
              obtain ⟨inner, hinner, hmap⟩ := ih hrest
              obtain ⟨outer, others, rfl, houter, hothers⟩ := List.map_eq_cons_iff.mp hmap
              rw [← houter] at hinside
              obtain ⟨spot, hspot, hunder⟩ := Spot.directlyInside_under_iff.mp hinside
              rw [← hunder, Spot.kind_under] at hkind
              refine ⟨{ id := first.id, spot } :: outer :: others, .node hinner hkind hspot, ?_⟩
              rw [List.map_cons, hmap, Visit.under, hunder]

end Chain

end LinkedPath
