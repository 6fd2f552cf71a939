import LinkedPath.Proofs.Json.Members
import LinkedPath.Proofs.Trace.Pointers

/-!
# Top-level nodes

A place is at top level when nothing but array indices leads to it: it is the
document itself or an element of a top-level array.  The key of a spot tells
whether it is there: at top level it is the name of the document, and anywhere
else it is the name of a member of some object (`Reaches.key_cases`).  And what
is directly inside a node is a direct member of it, since only arrays lie
between them.
-/

namespace LinkedPath

namespace Json

variable {document : Json} {outer inner : Pointer}

/-- From one place to another every container on the way is an array. -/
def ThroughArrays (document : Json) (outer inner : Pointer) : Prop :=
  ∀ front back, inner = front ++ back → back ≠ [] →
    ∃ items, document.at? (outer ++ front) = some (array items)

/-- A place that is reached from the document through array indices only. -/
def TopLevel (document : Json) (pointer : Pointer) : Prop :=
  document.ThroughArrays [] pointer

/-- A place that is reached from another one by one token and through array
indices behind it. -/
def DirectlyBelow (document : Json) (outer pointer : Pointer) : Prop :=
  ∃ token rest, pointer = outer ++ [token] ++ rest ∧
    document.ThroughArrays (outer ++ [token]) rest

theorem throughArrays_nil (document : Json) (outer : Pointer) :
    document.ThroughArrays outer [] := by
  rintro front back hsplit hback
  exact absurd (List.append_eq_nil_iff.mp hsplit.symm).2 hback

/-- One more array index. -/
theorem ThroughArrays.concat (h : document.ThroughArrays outer inner) {items : List Json}
    (harray : document.at? (outer ++ inner) = some (array items)) (token : String) :
    document.ThroughArrays outer (inner ++ [token]) := by
  intro front back hsplit hback
  obtain ⟨before, last, rfl⟩ : ∃ before last, back = before ++ [last] :=
    ⟨back.dropLast, back.getLast hback, (List.dropLast_concat_getLast hback).symm⟩
  rw [← List.append_assoc] at hsplit
  have hinner : inner = front ++ before := List.append_inj_left' hsplit rfl
  by_cases hempty : before = []
  · -- The last container on the way is the array itself.
    rw [hempty, List.append_nil] at hinner
    rw [← hinner]
    exact ⟨items, harray⟩
  · exact h front before hinner hempty

end Json

namespace Spot

variable {document : Json} {spot : Spot}

/-- At top level the key is the name of the document; elsewhere it is the name
of a member. -/
theorem Reaches.key_cases (hwf : document.WellFormed) (h : (root document).Reaches spot) :
    (spot.key = Keyword.document ∧ document.TopLevel spot.pointer) ∨
      document.HasMember spot.key := by
  induction h with
  | refl => exact Or.inl ⟨rfl, Json.throughArrays_nil document []⟩
  | @tail parent child hparent hchild ih =>
      have hat := Reaches.at? hwf hparent
      rcases mem_children_cases hchild with ⟨members, name, value, hvalue, hmember, rfl⟩ |
        ⟨items, position, item, _, hvalue, _, rfl⟩
      · right
        rw [hvalue] at hat
        exact ⟨members, ⟨parent.pointer, hat⟩, List.mem_map.mpr ⟨(name, value), hmember, rfl⟩⟩
      · -- An item takes over the key of its array and is at top level with it.
        rw [hvalue] at hat
        rcases ih with ⟨hkey, htop⟩ | hmember
        · left
          rw [pointer_item]
          exact ⟨hkey, Json.ThroughArrays.concat htop hat _⟩
        · exact Or.inr hmember

theorem Reaches.topLevel (hwf : document.WellFormed) (h : (root document).Reaches spot)
    {expander : Expander} (hspares : document.SparesDocumentName expander)
    (hkey : expander.accepts spot.key Keyword.document = true) :
    document.TopLevel spot.pointer := by
  rcases h.key_cases hwf with ⟨_, htop⟩ | hmember
  · exact htop
  · rw [hspares.accepts_eq_false hmember] at hkey
    contradiction

/-- Only arrays lie between a node and the nodes directly inside it. -/
theorem DirectlyInside.directlyBelow (hwf : document.WellFormed) {outer : Spot}
    (houter : (root document).Reaches outer) (h : outer.DirectlyInside spot) :
    document.DirectlyBelow outer.pointer spot.pointer := by
  induction h with
  | child hchild =>
      obtain ⟨token, hpointer, _⟩ := child?_of_mem_children (hwf.at? (houter.at? hwf)) hchild
      exact ⟨token, [], by rw [hpointer, List.append_nil], Json.throughArrays_nil document _⟩
  | @item array spot harray hkind hchild ih =>
      obtain ⟨token, rest, hpointer, hthrough⟩ := ih
      obtain ⟨⟨items, hitems⟩, _⟩ := kind_eq_array_iff.mp hkind
      have hat := Reaches.at? hwf (houter.trans harray.reaches)
      rw [hitems, hpointer] at hat
      obtain ⟨last, hlast, _⟩ :=
        child?_of_mem_children (hwf.at? (Reaches.at? hwf (houter.trans harray.reaches))) hchild
      refine ⟨token, rest ++ [last], ?_, hthrough.concat hat last⟩
      rw [hlast, hpointer, List.append_assoc]

end Spot

namespace Chain

variable {document : Json} {chain : Chain}

/-- A node stands directly inside the node one position below it, counted from
the document. -/
theorem Linked.directlyInside_of_getElem? (h : Linked document chain) {position : Nat}
    {outer inner : Visit} (houter : chain.reverse[position]? = some outer)
    (hinner : chain.reverse[position + 1]? = some inner) :
    outer.spot.DirectlyInside inner.spot := by
  induction h with
  | root => exact absurd (List.getElem?_eq_some_iff.mp hinner).1 (by simp [Chain.root])
  | @node visit around rest _ _ hinside ih =>
      rw [List.reverse_cons] at houter hinner
      have hlt := (List.getElem?_eq_some_iff.mp hinner).1
      rw [List.length_append, List.length_singleton] at hlt
      rw [List.getElem?_append_left (by omega)] at houter
      by_cases hlast : position + 1 = (around :: rest).reverse.length
      · -- The inner one is the node, the outer one the node around it.
        rw [hlast, List.getElem?_concat_length, Option.some.injEq] at hinner
        have hposition : position = rest.reverse.length := by
          simpa using hlast
        rw [List.reverse_cons, hposition, List.getElem?_concat_length,
          Option.some.injEq] at houter
        rw [← hinner, ← houter]
        exact hinside
      · rw [List.getElem?_append_left (by omega)] at hinner
        exact ih houter hinner

end Chain

end LinkedPath
