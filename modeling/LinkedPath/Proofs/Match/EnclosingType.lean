import LinkedPath.Proofs.Match.Lines
import LinkedPath.Proofs.Match.Resolution
import LinkedPath.Proofs.Trace.TopLevel

/-!
# The type around a node

The node around another one in a trace is the nearest object around it in the
document, or the document itself, if there is no object around it
(`Linked.nearestObject_or`).  For only arrays lie between the two, so that every
object around the inner place is one around the outer place or is there.  This
settles what a selector for types hands out
(`resolve?_by_nearest_object`).
-/

namespace LinkedPath

namespace Json

/-- There is an object around a place. -/
def Encloses (document : Json) (outer : Pointer) (members : List (String × Json))
    (pointer : Pointer) : Prop :=
  document.at? outer = some (object members) ∧ ∃ token rest, pointer = outer ++ token :: rest

/-- The innermost object around a place. -/
structure NearestObject (document : Json) (pointer outer : Pointer)
    (members : List (String × Json)) : Prop where
  encloses : document.Encloses outer members pointer
  nearest : ∀ other others, document.Encloses other others pointer → other <+: outer

variable {document : Json} {pointer outer other : Pointer} {members others : List (String × Json)}

theorem Encloses.isPrefix (h : document.Encloses outer members pointer) : outer <+: pointer := by
  obtain ⟨_, token, rest, rfl⟩ := h
  exact List.prefix_append _ _

theorem not_encloses_nil : ¬ document.Encloses outer members [] := by
  rintro ⟨_, token, rest, heq⟩
  simp at heq

/-- There is one innermost object around a place at most. -/
theorem NearestObject.unique (h : document.NearestObject pointer outer members)
    (hother : document.NearestObject pointer other others) : outer = other ∧ members = others := by
  have hle := hother.nearest _ _ h.encloses
  have hge := h.nearest _ _ hother.encloses
  obtain rfl : outer = other := hle.eq_of_length (Nat.le_antisymm hle.length_le hge.length_le)
  refine ⟨rfl, ?_⟩
  have hobject := h.encloses.1.symm.trans hother.encloses.1
  exact object.inj (Option.some.inj hobject)

/-- No object lies between a place and one directly below it. -/
theorem DirectlyBelow.isPrefix_of_encloses (h : document.DirectlyBelow outer pointer)
    (hother : document.Encloses other others pointer) : other <+: outer := by
  obtain ⟨token, rest, rfl, hthrough⟩ := h
  have hprefix := hother.isPrefix
  obtain ⟨hobject, last, behind, hsplit⟩ := hother
  by_cases hbelow : outer ++ [token] <+: other
  · -- What is between them is an array.
    obtain ⟨front, rfl⟩ := hbelow
    rw [List.append_assoc (outer ++ [token])] at hsplit
    obtain ⟨items, harray⟩ :=
      hthrough front (last :: behind) (List.append_cancel_left hsplit) (List.cons_ne_nil _ _)
    rw [hobject] at harray
    cases harray
  · rcases List.prefix_or_prefix_of_prefix hprefix (List.prefix_append _ rest) with habove | habove
    · rcases List.prefix_concat_iff.mp habove with rfl | habove
      · exact absurd List.prefix_rfl hbelow
      · exact habove
    · exact absurd habove hbelow

theorem DirectlyBelow.encloses (h : document.DirectlyBelow outer pointer)
    (hobject : document.at? outer = some (object members)) :
    document.Encloses outer members pointer := by
  obtain ⟨token, rest, rfl, _⟩ := h
  exact ⟨hobject, token, rest, by rw [List.append_assoc, List.singleton_append]⟩

end Json

namespace Chain

variable {document : Json}

/-- The node around a node is the nearest object around it, or an array with no
object around the place. -/
theorem Linked.nearestObject_or (hwf : document.WellFormed) {visit outer : Visit} {around : Chain}
    (h : Linked document (visit :: outer :: around)) :
    (∃ members, outer.spot.value = .object members ∧
      document.NearestObject visit.spot.pointer outer.spot.pointer members) ∨
    ((∃ items, outer.spot.value = .array items) ∧
      ∀ other others, ¬ document.Encloses other others visit.spot.pointer) := by
  have houter := h.reaches outer (List.mem_cons_of_mem _ List.mem_cons_self)
  have hbelow : document.DirectlyBelow outer.spot.pointer visit.spot.pointer := by
    cases h with
    | node _ _ hinside => exact hinside.directlyBelow hwf houter
  rcases h.kind_of_mem_tail outer List.mem_cons_self with hkind | ⟨rfl, hkind⟩
  · left
    obtain ⟨members, hvalue⟩ := Spot.kind_eq_object_iff.mp hkind
    have hat := houter.at? hwf
    rw [hvalue] at hat
    exact ⟨members, hvalue, hbelow.encloses hat, fun _ _ => hbelow.isPrefix_of_encloses⟩
  · -- The array is the document, and it would be the only place for an object.
    right
    obtain ⟨⟨items, hvalue⟩, _⟩ := Spot.kind_eq_array_iff.mp hkind
    refine ⟨⟨items, hvalue⟩, ?_⟩
    intro other others hencloses
    have hnil : other = [] := List.prefix_nil.mp (hbelow.isPrefix_of_encloses hencloses)
    have hobject := hencloses.1
    rw [hnil, Json.at?, show document = .array items from hvalue] at hobject
    cases hobject

/-- A node under the type keyword is the type in the nearest object around
it. -/
theorem Linked.type_of_nearestObject (hwf : document.WellFormed) {chain : Chain} {visit : Visit}
    (h : Linked document chain) (hvisit : chain.head? = some visit)
    (hkey : visit.spot.key = Keyword.type) :
    ∃ outer members, document.NearestObject visit.spot.pointer outer members ∧
      members.lookup Keyword.type = some visit.spot.value := by
  cases h with
  | root =>
      obtain rfl := Option.some.inj hvisit
      have hne : Keyword.document ≠ Keyword.type := by decide
      exact absurd hkey hne
  | node haround hkind hinside =>
      obtain rfl := Option.some.inj hvisit
      have hlinked := Linked.node haround hkind hinside
      have hmember := hlinked.member?_type hwf hkey
      rcases hlinked.nearestObject_or hwf with ⟨members, hvalue, hnearest⟩ | ⟨⟨items, hvalue⟩, _⟩
      · rw [hvalue] at hmember
        exact ⟨_, members, hnearest, hmember⟩
      · rw [hvalue] at hmember
        contradiction

end Chain

namespace Compiled

variable {document : Json} {query : Compiled}

/-- A selector for types hands out the type in the nearest object around the
node. -/
theorem handsOut?_of_selectsType (hwf : document.WellFormed) {chain : Chain} {visit : Visit}
    (h : Chain.Linked document chain) (hvisit : chain.head? = some visit)
    (hselects : query.selectsType = true) :
    (∃ outer members, document.NearestObject visit.spot.pointer outer members ∧
      query.handsOut? chain.line = some ((members.lookup Keyword.type).getD visit.spot.value)) ∨
    ((∀ outer members, ¬ document.Encloses outer members visit.spot.pointer) ∧
      query.handsOut? chain.line = some visit.spot.value) := by
  rw [handsOut?, if_pos hselects]
  cases h with
  | root =>
      obtain rfl := Option.some.inj hvisit
      exact Or.inr ⟨fun _ _ => Json.not_encloses_nil, rfl⟩
  | @node _ outer around haround hkind hinside =>
      obtain rfl := Option.some.inj hvisit
      have hlinked := Chain.Linked.node haround hkind hinside
      change (∃ _ _, _ ∧ (outer.spot.value.member? Keyword.type).or _ = _) ∨
        _ ∧ (outer.spot.value.member? Keyword.type).or _ = _
      rcases hlinked.nearestObject_or hwf with
        ⟨members, hvalue, hnearest⟩ | ⟨⟨items, hvalue⟩, hnone⟩
      · left
        refine ⟨_, members, hnearest, ?_⟩
        rw [hvalue, Json.member?]
        cases members.lookup Keyword.type <;> rfl
      · right
        exact ⟨hnone, by rw [hvalue]; rfl⟩

/-- Every trace of a well-formed document hands out a value: that of its node,
unless types are selected.  Then it is the type in the nearest object around the
node, and that of the node again when there is none.  A node under the type
keyword is itself the type in the nearest object around it. -/
theorem resolve?_by_nearest_object (hwf : document.WellFormed) (query : Compiled) {trace : Trace}
    (htrace : trace ∈ traces document) :
    ∃ entry own, trace.node? = some entry ∧ entry.value? document = some own ∧
      (query.resolve? document trace).isSome = true ∧
      (query.selectsType = false ∨ entry.key = Keyword.type →
        query.resolve? document trace = some own) ∧
      (entry.key = Keyword.type → ∃ outer members,
        document.NearestObject entry.pointer outer members ∧
          members.lookup Keyword.type = some own) ∧
      (query.selectsType = true →
        (∃ outer members, document.NearestObject entry.pointer outer members ∧
          query.resolve? document trace = some ((members.lookup Keyword.type).getD own)) ∨
        ((∀ outer members, ¬ document.Encloses outer members entry.pointer) ∧
          query.resolve? document trace = some own)) := by
  obtain ⟨value, hsome, _⟩ := resolve?_of_mem_traces query hwf htrace
  obtain ⟨chain, hlinked, rfl⟩ := exists_linked_of_mem_traces htrace
  obtain ⟨visit, around, rfl⟩ := List.exists_cons_of_ne_nil hlinked.ne_nil
  have hown : visit.entry.value? document = some visit.spot.value :=
    (hlinked.reaches visit List.mem_cons_self).at? hwf
  refine ⟨visit.entry, visit.spot.value, rfl, hown, by rw [hsome]; rfl, ?_,
    hlinked.type_of_nearestObject hwf rfl, ?_⟩
  · rintro (hplain | hkey)
    · rw [resolve?_of_selectsType_eq_false hplain]
      exact hown
    · rw [resolve?_of_key_eq_type hwf htrace (congrArg some hkey)]
      exact hown
  · intro hselects
    rw [resolve?_trace hwf hlinked]
    exact handsOut?_of_selectsType hwf hlinked rfl hselects

/-- Members with a type, and a number in arrays. -/
def typedMembers : List (String × Json) :=
  [(Keyword.type, .string "T"), ("b", .array [.array [.number (.integer 1)], .null])]

/-- A document that holds them in arrays. -/
def typedItem : Json :=
  .object [("a", .array [.array [.object typedMembers]])]

/-- The nearest object around a number is seen through the arrays in between. -/
theorem resolve?_by_nearest_object_throughArrays :
    let query : Compiled :=
      { source := "@type", path := [.node (NodeTest.named Keyword.type)], rootPredicates := [] }
    typedItem.WellFormed ∧ query.selectsType = true ∧
      ∃ trace ∈ traces typedItem,
        trace.node?.map Entry.pointer = some ["a", "0", "0", "b", "0", "0"] ∧
          query.resolve? typedItem trace = some (.string "T") := by
  intro query
  have hwf : typedItem.WellFormed := by
    simp [typedItem, typedMembers, Json.WellFormed, Json.AllWellFormed, Json.MembersWellFormed,
      Keyed.keys, Keyword.type]
  have hselects : query.selectsType = true := by decide
  obtain ⟨visit, outer, around, hchain, hpointer, hvalue⟩ : ∃ visit outer around,
      (documentOrder typedItem)[3]? = some (visit :: outer :: around) ∧
        visit.spot.pointer = ["a", "0", "0", "b", "0", "0"] ∧
        outer.spot.value = .object typedMembers := ⟨_, _, _, rfl, rfl, rfl⟩
  have hmem := List.mem_of_getElem? hchain
  have htrace : Chain.trace (visit :: outer :: around) ∈ traces typedItem := by
    rw [traces_eq]
    exact List.mem_map_of_mem hmem
  have hnearest : typedItem.NearestObject visit.spot.pointer outer.spot.pointer typedMembers := by
    rcases (Chain.linked_of_mem_documentOrder hmem).nearestObject_or hwf with
      ⟨members, hobject, hnearest⟩ | ⟨⟨items, harray⟩, _⟩
    · obtain rfl := Json.object.inj (hvalue.symm.trans hobject)
      exact hnearest
    · rw [hvalue] at harray
      cases harray
  refine ⟨hwf, hselects, _, htrace, congrArg some hpointer, ?_⟩
  obtain ⟨entry, own, hentry, _, _, _, _, htype⟩ := resolve?_by_nearest_object hwf query htrace
  obtain rfl : visit.entry = entry := Option.some.inj hentry
  rcases htype hselects with ⟨place, members, hfound, hresolve⟩ | ⟨hnone, _⟩
  · rw [hresolve, (hfound.unique hnearest).2]
    rfl
  · exact absurd hnearest.encloses (hnone _ _)

end Compiled

end LinkedPath
