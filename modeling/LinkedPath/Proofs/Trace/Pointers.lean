import Mathlib.Data.List.Nodup
import LinkedPath.Proofs.Trace.Spots
import LinkedPath.Proofs.Trace.WalkOrder

/-!
# The pointers of a walk

The visited spots below a spot are those that are reached from it and are no
grouping arrays, and each of them is visited once: the spots below two children
lie behind different tokens.  So the pointers of a walk lead to the visited
values, no two nodes share one, and together they name every node of the
document.
-/

namespace LinkedPath

namespace Spot

variable {spot : Spot}

theorem Reaches.pointer_prefix {inner : Spot} (h : spot.Reaches inner) :
    spot.pointer <+: inner.pointer := by
  induction h with
  | refl => exact List.prefix_rfl
  | tail _ hchild ih =>
      rcases mem_children_cases hchild with ⟨_, name, value, _, _, rfl⟩ |
        ⟨_, position, item, _, _, _, rfl⟩
      · rw [pointer_member]
        exact ih.trans (List.prefix_append _ _)
      · rw [pointer_item]
        exact ih.trans (List.prefix_append _ _)

theorem children_of_kind_eq_leaf (h : spot.kind = .leaf) :
    spot.children = [] := by
  rw [children, h]
  rfl

theorem length_pointer_of_mem_children {child : Spot} (h : child ∈ spot.children) :
    child.pointer.length = spot.pointer.length + 1 := by
  rcases mem_children_cases h with ⟨_, name, value, _, _, rfl⟩ | ⟨_, position, item, _, _, _, rfl⟩
  · rw [pointer_member, List.length_append, List.length_singleton]
  · rw [pointer_item, List.length_append, List.length_singleton]

theorem map_pointer_children_of_object {members : List (String × Json)}
    (hvalue : spot.value = .object members) :
    spot.children.map pointer = (Keyed.keys members).map fun name => spot.pointer ++ [name] := by
  unfold children kind
  rw [hvalue]
  show ((members.map _).map _).map pointer = _
  rw [List.map_map, List.map_map, Keyed.keys, List.map_map]
  apply List.map_congr_left
  rintro ⟨name, value⟩ _
  exact pointer_member spot name value

theorem map_pointer_children_of_array {items : List Json} (hkind : spot.kind = .array)
    (hvalue : spot.value = .array items) :
    spot.children.map pointer =
      (List.range' 0 items.length).map fun position =>
        spot.pointer ++ [Pointer.indexToken position] := by
  unfold children
  rw [hkind, hvalue]
  show ((items.zipIdx.map _).map _).map pointer = _
  rw [List.map_map, List.map_map, ← List.zipIdx_map_snd 0 items, List.map_map]
  apply List.map_congr_left
  rintro ⟨item, position⟩ _
  exact pointer_item spot position item

/-- The children of a well-formed value lie behind different tokens. -/
theorem nodup_pointer_children (hwf : spot.value.WellFormed) :
    (spot.children.map pointer).Nodup := by
  cases hkind : spot.kind with
  | leaf =>
      rw [children_of_kind_eq_leaf hkind]
      exact List.nodup_nil
  | object =>
      -- Members differ in their keys, as the object is well formed.
      obtain ⟨members, hvalue⟩ := kind_eq_object_iff.mp hkind
      rw [map_pointer_children_of_object hvalue]
      rw [hvalue, Json.WellFormed] at hwf
      refine hwf.1.map ?_
      intro name other heq
      simpa using heq
  | array =>
      -- Items differ in their positions, and so in the tokens of these.
      obtain ⟨⟨items, hvalue⟩, _⟩ := kind_eq_array_iff.mp hkind
      rw [map_pointer_children_of_array hkind hvalue]
      refine List.Nodup.map ?_ List.nodup_range'
      intro position other heq
      exact Pointer.indexToken_injective (by simpa using heq)

end Spot

namespace Chain

/-- The spot of the node of a chain. -/
def spot? (chain : Chain) : Option Spot := chain.head?.map Visit.spot

/-- The pointer of the node of a chain. -/
def pointer? (chain : Chain) : Option Pointer := chain.spot?.map Spot.pointer

/-! ## Visited spots -/

theorem reaches_of_mem_ofSpot {around chain : Chain} {next : Nat} {spot : Spot}
    (h : chain ∈ ofSpot around next spot) :
    ∃ inner, chain.spot? = some inner ∧ spot.Reaches inner ∧ inner.kind ≠ .array := by
  induction spot using Spot.induction generalizing around next with
  | step spot ih =>
      have hbelow : ∀ {around next}, chain ∈ ofSpots around next spot.children →
          ∃ inner, chain.spot? = some inner ∧ spot.Reaches inner ∧ inner.kind ≠ .array := by
        intro around next hmem
        obtain ⟨child, hchild, first, hmem⟩ := mem_ofSpots hmem
        obtain ⟨inner, hinner, hreaches, hkind⟩ := ih child hchild hmem
        exact ⟨inner, hinner, hreaches.head hchild, hkind⟩
      rw [ofSpot_eq] at h
      cases hkind : spot.kind with
      | leaf =>
          rw [hkind] at h
          obtain rfl := List.mem_singleton.mp h
          exact ⟨spot, rfl, Relation.ReflTransGen.refl, by simp [hkind]⟩
      | array =>
          rw [hkind] at h
          exact hbelow h
      | object =>
          rw [hkind] at h
          rcases List.mem_cons.mp h with rfl | hmem
          · exact ⟨spot, rfl, Relation.ReflTransGen.refl, by simp [hkind]⟩
          · exact hbelow hmem

theorem exists_mem_ofSpot {spot inner : Spot} (hreaches : spot.Reaches inner)
    (hinner : inner.kind ≠ .array) (around : Chain) (next : Nat) :
    ∃ chain ∈ ofSpot around next spot, chain.spot? = some inner := by
  induction spot using Spot.induction generalizing around next with
  | step spot ih =>
      rw [ofSpot_eq]
      -- The first link of the way leads to a child, to which the induction applies.
      rcases hreaches.cases_head with rfl | ⟨child, hchild, hbelow⟩
      · -- The spot itself: it heads the list, as it is no grouping array.
        cases hkind : spot.kind with
        | leaf => exact ⟨_, List.mem_singleton_self _, rfl⟩
        | array => exact absurd hkind hinner
        | object => exact ⟨_, List.mem_cons_self, rfl⟩
      · have hspots : ∀ around next, ∃ chain ∈ ofSpots around next spot.children,
            chain.spot? = some inner := by
          intro around next
          obtain ⟨first, hsubset⟩ := subset_ofSpots around hchild next
          obtain ⟨chain, hmem, hspot⟩ := ih child hchild hbelow around first
          exact ⟨chain, hsubset hmem, hspot⟩
        cases hkind : spot.kind with
        | leaf => simp [Spot.children_of_kind_eq_leaf hkind] at hchild
        | array => exact hspots around next
        | object =>
            obtain ⟨chain, hmem, hspot⟩ := hspots ({ id := next, spot } :: around) (next + 1)
            exact ⟨chain, List.mem_cons_of_mem _ hmem, hspot⟩

theorem pointer?_of_mem_ofSpot {around chain : Chain} {next : Nat} {spot : Spot}
    (h : chain ∈ ofSpot around next spot) :
    ∃ pointer, chain.pointer? = some pointer ∧ spot.pointer <+: pointer := by
  obtain ⟨inner, hinner, hreaches, _⟩ := reaches_of_mem_ofSpot h
  refine ⟨inner.pointer, ?_, hreaches.pointer_prefix⟩
  rw [pointer?, hinner]
  rfl

/-! ## Distinct pointers -/

/-- Spots of one depth with different pointers have no visited pointer in
common. -/
theorem nodup_ofSpots {around : Chain} {spots : List Spot} {depth : Nat}
    (hdepth : ∀ spot ∈ spots, spot.pointer.length = depth)
    (hpointers : (spots.map Spot.pointer).Nodup)
    (hspots : ∀ spot ∈ spots, ∀ next, ((ofSpot around next spot).map pointer?).Nodup)
    (next : Nat) : ((ofSpots around next spots).map pointer?).Nodup := by
  induction spots generalizing next with
  | nil => exact List.nodup_nil
  | cons spot rest ih =>
      obtain ⟨hspotDepth, hrestDepth⟩ := List.forall_mem_cons.mp hdepth
      obtain ⟨hspot, hrest⟩ := List.forall_mem_cons.mp hspots
      rw [List.map_cons, List.nodup_cons] at hpointers
      rw [ofSpots, List.map_append, List.nodup_append]
      refine ⟨hspot next, ih hrestDepth hpointers.2 hrest _, ?_⟩
      intro place hfirst other hrest heq
      subst heq
      obtain ⟨chain, hchain, rfl⟩ := List.mem_map.mp hfirst
      obtain ⟨second, hsecond, heq⟩ := List.mem_map.mp hrest
      obtain ⟨sibling, hsibling, first, hsecond⟩ := mem_ofSpots hsecond
      obtain ⟨pointer, hpointer, hprefix⟩ := pointer?_of_mem_ofSpot hchain
      obtain ⟨other, hother, hprefix'⟩ := pointer?_of_mem_ofSpot hsecond
      rw [hpointer, hother, Option.some.injEq] at heq
      subst heq
      -- Two beginnings of one pointer that are equally long are the same.
      have hlength : spot.pointer.length = sibling.pointer.length := by
        rw [hspotDepth, hrestDepth sibling hsibling]
      have hsame : spot.pointer = sibling.pointer :=
        (List.prefix_of_prefix_length_le hprefix hprefix' (by omega)).eq_of_length hlength
      exact hpointers.1 (List.mem_map.mpr ⟨sibling, hsibling, hsame.symm⟩)

theorem pointer?_not_mem_ofSpots_children (spot : Spot) (around : Chain) (next : Nat) :
    some spot.pointer ∉ (ofSpots around next spot.children).map pointer? := by
  intro hmem
  obtain ⟨chain, hchain, hpointer⟩ := List.mem_map.mp hmem
  obtain ⟨child, hchild, first, hchain⟩ := mem_ofSpots hchain
  obtain ⟨pointer, hpointer', hprefix⟩ := pointer?_of_mem_ofSpot hchain
  rw [hpointer', Option.some.injEq] at hpointer
  have hlength := hprefix.length_le
  rw [hpointer, Spot.length_pointer_of_mem_children hchild] at hlength
  omega

theorem nodup_ofSpots_children (spot : Spot) (hwf : spot.value.WellFormed)
    (h : ∀ child ∈ spot.children, child.value.WellFormed →
      ∀ around next, ((ofSpot around next child).map pointer?).Nodup)
    (around : Chain) (next : Nat) : ((ofSpots around next spot.children).map pointer?).Nodup := by
  refine nodup_ofSpots (fun child hchild => Spot.length_pointer_of_mem_children hchild)
    (Spot.nodup_pointer_children hwf) ?_ next
  intro child hchild next
  obtain ⟨token, _, hvalue⟩ := Spot.child?_of_mem_children hwf hchild
  exact h child hchild (hwf.child? hvalue) around next

theorem nodup_ofSpot {spot : Spot} (hwf : spot.value.WellFormed) (around : Chain) (next : Nat) :
    ((ofSpot around next spot).map pointer?).Nodup := by
  induction spot using Spot.induction generalizing around next with
  | step spot ih =>
      have hchildren := nodup_ofSpots_children spot hwf ih
      rw [ofSpot_eq]
      cases spot.kind with
      | leaf => exact List.nodup_singleton _
      | array => exact hchildren around next
      | object =>
          exact List.nodup_cons.mpr
            ⟨pointer?_not_mem_ofSpots_children spot _ _, hchildren _ _⟩

/-- No two chains have nodes with the same pointer. -/
theorem nodup_documentOrder {document : Json} (hwf : document.WellFormed) :
    ((documentOrder document).map pointer?).Nodup := by
  have hchildren := nodup_ofSpots_children (Spot.root document) hwf
    fun child _ hchild around next => nodup_ofSpot hchild around next
  rw [documentOrder_eq]
  exact List.nodup_cons.mpr
    ⟨pointer?_not_mem_ofSpots_children (Spot.root document) _ 1, hchildren _ 1⟩

/-! ## Nodes of the document -/

theorem exists_mem_documentOrder {document : Json} {inner : Spot}
    (hreaches : (Spot.root document).Reaches inner)
    (hinner : inner = Spot.root document ∨ inner.kind ≠ .array) :
    ∃ chain ∈ documentOrder document, chain.spot? = some inner := by
  rw [documentOrder_eq]
  rcases hreaches.cases_head with rfl | ⟨child, hchild, hbelow⟩
  · exact ⟨_, List.mem_cons_self, rfl⟩
  · have hkind : inner.kind ≠ .array := by
      rcases hinner with rfl | hkind
      · -- Nothing below the document has its pointer.
        have hlength := (Spot.Reaches.pointer_prefix hbelow).length_le
        rw [Spot.length_pointer_of_mem_children hchild] at hlength
        omega
      · exact hkind
    obtain ⟨first, hsubset⟩ := subset_ofSpots (root document) hchild 1
    obtain ⟨chain, hmem, hspot⟩ := exists_mem_ofSpot hbelow hkind (root document) first
    exact ⟨chain, List.mem_cons_of_mem _ (hsubset hmem), hspot⟩

/-- The pointers of the nodes are those of the document and of all values but
grouping arrays and what is inside an array of types. -/
theorem pointer?_mem_iff {document : Json} (hwf : document.WellFormed) (pointer : Pointer) :
    some pointer ∈ (documentOrder document).map pointer? ↔ document.IsNode pointer := by
  constructor
  · intro hmem
    obtain ⟨chain, hchain, hpointer⟩ := List.mem_map.mp hmem
    rw [documentOrder_eq] at hchain
    rcases List.mem_cons.mp hchain with rfl | hchildren
    · left
      exact (Option.some.inj hpointer).symm
    · right
      obtain ⟨child, hchild, first, hchain⟩ := mem_ofSpots hchildren
      obtain ⟨inner, hinner, hbelow, hkind⟩ := reaches_of_mem_ofSpot hchain
      rw [pointer?, hinner, Option.map_some, Option.some.injEq] at hpointer
      subst hpointer
      have hreaches : (Spot.root document).Reaches inner := hbelow.head hchild
      refine ⟨?_, ?_, hreaches.not_insideTypeArray hwf⟩
      · rw [hreaches.at? hwf]
        rfl
      · rw [← hreaches.kind_eq_array_iff hwf]
        exact hkind
  · intro hnode
    have hspot : ∃ inner, (Spot.root document).Reaches inner ∧ inner.pointer = pointer ∧
        (inner = Spot.root document ∨ inner.kind ≠ .array) := by
      rcases hnode with rfl | ⟨hvalue, hgrouping, houtside⟩
      · exact ⟨Spot.root document, Relation.ReflTransGen.refl, rfl, Or.inl rfl⟩
      · obtain ⟨value, hvalue⟩ := Option.isSome_iff_exists.mp hvalue
        obtain ⟨inner, hreaches, rfl, _⟩ := Spot.exists_reaches hvalue hwf houtside
        rw [← hreaches.kind_eq_array_iff hwf] at hgrouping
        exact ⟨inner, hreaches, rfl, Or.inr hgrouping⟩
    obtain ⟨inner, hreaches, rfl, hinner⟩ := hspot
    obtain ⟨chain, hchain, hspot⟩ := exists_mem_documentOrder hreaches hinner
    refine List.mem_map.mpr ⟨chain, hchain, ?_⟩
    rw [pointer?, hspot]
    rfl

end Chain

/-! ## Enclosing nodes -/

theorem Spot.DirectlyInside.reaches {outer inner : Spot} (h : outer.DirectlyInside inner) :
    outer.Reaches inner := by
  induction h with
  | child hchild => exact Relation.ReflTransGen.single hchild
  | item _ _ hchild ih => exact ih.tail hchild

theorem Spot.DirectlyInside.kind_ne_leaf {outer inner : Spot} (h : outer.DirectlyInside inner) :
    outer.kind ≠ .leaf := by
  induction h with
  | child hchild =>
      intro hleaf
      rw [children_of_kind_eq_leaf hleaf] at hchild
      simp at hchild
  | item _ _ _ ih => exact ih

namespace Chain

variable {document : Json} {chain : Chain}

theorem Linked.reaches (h : Linked document chain) :
    ∀ visit ∈ chain, (Spot.root document).Reaches visit.spot := by
  induction h with
  | root =>
      intro visit hvisit
      obtain rfl := List.mem_singleton.mp hvisit
      exact Relation.ReflTransGen.refl
  | @node inner outer around _ _ hinside ih =>
      intro visit hvisit
      rcases List.mem_cons.mp hvisit with rfl | haround
      · exact (ih outer List.mem_cons_self).trans hinside.reaches
      · exact ih visit haround

/-- A node with a node inside it is an object, or it is the document and that
is an array. -/
theorem Linked.kind_of_mem_tail (h : Linked document chain) :
    ∀ visit ∈ chain.tail, visit.spot.kind = .object ∨
      (visit = { id := 0, spot := Spot.root document } ∧ visit.spot.kind = .array) := by
  have hkind : ∀ {visit outer : Visit} {around : Chain},
      Linked document (outer :: around) → outer.spot.DirectlyInside visit.spot →
        outer.spot.kind = .object ∨
          (outer = { id := 0, spot := Spot.root document } ∧ outer.spot.kind = .array) := by
    intro visit outer around haround hinside
    cases hkind : outer.spot.kind with
    | object => exact Or.inl rfl
    | leaf => exact absurd hkind hinside.kind_ne_leaf
    | array =>
        -- Only the document may be an array and have a chain.
        cases haround with
        | root => exact Or.inr ⟨rfl, rfl⟩
        | node _ hne _ => exact absurd hkind hne
  induction h with
  | root =>
      intro visit hvisit
      exact absurd hvisit List.not_mem_nil
  | node haround _ hinside ih =>
      intro visit hvisit
      rcases List.mem_cons.mp hvisit with rfl | htail
      · exact hkind haround hinside
      · exact ih visit htail

end Chain

/-! ## Texts of pointers -/

/-- The value that the text of an entry's pointer leads to. -/
def Entry.valueOfText? (entry : Entry) (document : Json) : Option Json :=
  (Pointer.ofTextPasses? entry.pointer.text).bind document.at?

/-- The text of the pointer of the node of a trace. -/
def Trace.pointerText? (trace : Trace) : Option String :=
  trace.node?.map fun node => node.pointer.text

theorem Entry.valueOfText?_eq (entry : Entry) (document : Json) :
    entry.valueOfText? document = entry.value? document := by
  rw [valueOfText?, Pointer.ofTextPasses?_text]
  rfl

theorem Chain.pointerText?_trace (chain : Chain) :
    chain.trace.pointerText? = chain.pointer?.map Pointer.text := by
  cases chain with
  | nil => rfl
  | cons visit around => rfl

theorem map_pointerText?_traces (document : Json) :
    (traces document).map Trace.pointerText? =
      ((documentOrder document).map Chain.pointer?).map (Option.map Pointer.text) := by
  rw [traces_eq, List.map_map, List.map_map]
  exact List.map_congr_left fun chain _ => chain.pointerText?_trace

theorem map_text_injective : Function.Injective (Option.map Pointer.text) :=
  Option.map_injective fun _ _ => Pointer.text_injective

/-- In a well-formed document the text of every pointer leads to the visited
value, whose kind is the one on record.  The pointers of two nodes differ, and
they are those of the document and of all values but grouping arrays and what
is inside an array of types.  Around a node there are only objects and, at the
outermost place, the array that the document may be. -/
theorem pointers_of_traces_name_nodes {document : Json} (hwf : document.WellFormed) :
    (∀ (i : Nat) (trace : Trace), (traces document)[i]? = some trace →
      ∃ chain : Chain, (documentOrder document)[i]? = some chain ∧ chain.trace = trace ∧
        ∀ visit ∈ chain, visit.entry.valueOfText? document = some visit.spot.value ∧
          visit.entry.kind = Kind.of visit.entry.key visit.spot.value) ∧
    ((traces document).map Trace.pointerText?).Nodup ∧
    (∀ pointer : Pointer, some pointer.text ∈ (traces document).map Trace.pointerText? ↔
      document.IsNode pointer) ∧
    ∀ trace ∈ traces document, ∀ entry ∈ trace.tail,
      (∃ members, entry.valueOfText? document = some (.object members)) ∨
        (entry = Walk.rootEntry document ∧ ∃ items, document = .array items) := by
  have hvalue : ∀ chain ∈ documentOrder document, ∀ visit ∈ chain,
      visit.entry.valueOfText? document = some visit.spot.value := by
    intro chain hchain visit hvisit
    rw [Entry.valueOfText?_eq]
    exact ((Chain.linked_of_mem_documentOrder hchain).reaches visit hvisit).at? hwf
  refine ⟨?_, ?_, ?_, ?_⟩
  · intro i trace htrace
    rw [traces_eq, List.getElem?_map] at htrace
    obtain ⟨chain, hchain, rfl⟩ := Option.map_eq_some_iff.mp htrace
    refine ⟨chain, hchain, rfl, ?_⟩
    intro visit hvisit
    exact ⟨hvalue chain (List.mem_of_getElem? hchain) visit hvisit, rfl⟩
  · rw [map_pointerText?_traces]
    exact (Chain.nodup_documentOrder hwf).map map_text_injective
  · intro pointer
    rw [map_pointerText?_traces, ← Chain.pointer?_mem_iff hwf]
    exact List.mem_map_of_injective map_text_injective (a := some pointer)
  · intro trace htrace entry hentry
    rw [traces_eq] at htrace
    obtain ⟨chain, hchain, rfl⟩ := List.mem_map.mp htrace
    rw [Chain.trace, ← List.map_tail] at hentry
    obtain ⟨visit, hvisit, rfl⟩ := List.mem_map.mp hentry
    rw [hvalue chain hchain visit (List.mem_of_mem_tail hvisit)]
    rcases (Chain.linked_of_mem_documentOrder hchain).kind_of_mem_tail visit hvisit with
      hobject | ⟨rfl, harray⟩
    · left
      obtain ⟨members, hmembers⟩ := Spot.kind_eq_object_iff.mp hobject
      exact ⟨members, by rw [hmembers]⟩
    · right
      exact ⟨rfl, (Spot.kind_eq_array_iff.mp harray).1⟩

/-- A document with keys that need escapes, nested arrays and types. -/
def escapedKeys : Json :=
  .object
    [("a/b", .array [.object [("~1", .null)], .array [.bool true]]), ("", .string "x"),
      (Keyword.type, .array [.string "T"])]

theorem pointers_of_traces_name_nodes_escapedKeys :
    escapedKeys.WellFormed ∧ ((traces escapedKeys).map Trace.pointerText?).Nodup ∧
      (some "/a~1b/0/~01" ∈ (traces escapedKeys).map Trace.pointerText? ↔
        escapedKeys.IsNode ["a/b", "0", "~1"]) := by
  have hwf : escapedKeys.WellFormed := by
    simp [escapedKeys, Json.WellFormed, Json.AllWellFormed, Json.MembersWellFormed, Keyed.keys,
      Keyword.type]
  have hnames := pointers_of_traces_name_nodes hwf
  exact ⟨hwf, hnames.2.1, hnames.2.2.1 ["a/b", "0", "~1"]⟩

end LinkedPath
