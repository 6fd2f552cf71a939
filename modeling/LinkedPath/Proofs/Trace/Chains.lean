import LinkedPath.Proofs.Trace.DocumentOrder

/-!
# The chains of a document

Facts about the list of chains that need no second look at the walk.  Visits
are numbered in order; what is below the node of a chain is the chain of the
enclosing node, which comes earlier; and between a node and the node below it
in the chain there is nothing but grouping arrays.
-/

namespace LinkedPath

/-- A spot directly inside a node: only grouping arrays lie between them. -/
inductive Spot.DirectlyInside (outer : Spot) : Spot → Prop
  | child {spot : Spot} (h : spot ∈ outer.children) : DirectlyInside outer spot
  | item {array spot : Spot} (harray : DirectlyInside outer array) (hkind : array.kind = .array)
      (h : spot ∈ array.children) : DirectlyInside outer spot

namespace Chain

/-- The number of the node of a chain. -/
def nodeId? (chain : Chain) : Option Nat := chain.trace.node?.map Entry.id

/-- The chains are numbered in order from a first number on. -/
def Numbered (next : Nat) (chains : List Chain) : Prop :=
  chains.map nodeId? = (List.range' next chains.length).map some

/-- Every chain is a node on top of a chain that is already known. -/
def Closed : List Chain → List Chain → Prop
  | _, [] => True
  | known, chain :: rest => chain.tail ∈ known ∧ Closed (chain :: known) rest

/-- Every node of the chain is directly inside the one below it and is no
grouping array, and the last one is the document. -/
inductive Linked (document : Json) : Chain → Prop
  | root : Linked document (root document)
  | node {visit outer : Visit} {around : Chain} (haround : Linked document (outer :: around))
      (hkind : visit.spot.kind ≠ .array) (h : outer.spot.DirectlyInside visit.spot) :
      Linked document (visit :: outer :: around)

/-! ## Membership -/

/-- A contributed chain comes from one of the spots, together with all that this
spot contributes. -/
theorem exists_subset_of_mem_ofSpots {around chain : Chain} {spots : List Spot} {next : Nat}
    (h : chain ∈ ofSpots around next spots) :
    ∃ spot ∈ spots, ∃ first, chain ∈ ofSpot around first spot ∧
      ofSpot around first spot ⊆ ofSpots around next spots := by
  induction spots generalizing next with
  | nil => simp [ofSpots] at h
  | cons spot rest ih =>
      rw [ofSpots] at h ⊢
      rcases List.mem_append.mp h with hfirst | hrest
      · exact ⟨spot, by simp, next, hfirst, List.subset_append_left _ _⟩
      · obtain ⟨other, hother, first, hchain, hsubset⟩ := ih hrest
        exact ⟨other, List.mem_cons_of_mem _ hother, first, hchain,
          List.subset_append_of_subset_right _ hsubset⟩

theorem mem_ofSpots {around chain : Chain} {spots : List Spot} {next : Nat}
    (h : chain ∈ ofSpots around next spots) :
    ∃ spot ∈ spots, ∃ first, chain ∈ ofSpot around first spot := by
  obtain ⟨spot, hspot, first, hchain, _⟩ := exists_subset_of_mem_ofSpots h
  exact ⟨spot, hspot, first, hchain⟩

theorem subset_ofSpots (around : Chain) {spots : List Spot} {spot : Spot} (h : spot ∈ spots)
    (next : Nat) : ∃ first, ofSpot around first spot ⊆ ofSpots around next spots := by
  -- The first number depends on how many chains come before.
  induction spots generalizing next with
  | nil => simp at h
  | cons other rest ih =>
      rw [ofSpots]
      rcases List.mem_cons.mp h with rfl | hrest
      · exact ⟨next, List.subset_append_left _ _⟩
      · obtain ⟨first, hfirst⟩ := ih hrest (next + (ofSpot around next other).length)
        exact ⟨first, List.subset_append_of_subset_right _ hfirst⟩

/-! ## Numbers -/

theorem Numbered.append {next : Nat} {first second : List Chain} (hfirst : Numbered next first)
    (hsecond : Numbered (next + first.length) second) : Numbered next (first ++ second) := by
  unfold Numbered at *
  rw [List.map_append, hfirst, hsecond, ← List.map_append, List.length_append,
    List.range'_append_1]

theorem Numbered.cons {chain : Chain} {next : Nat} {rest : List Chain}
    (hchain : nodeId? chain = some next) (hrest : Numbered (next + 1) rest) :
    Numbered next (chain :: rest) := by
  unfold Numbered at *
  rw [List.map_cons, hchain, hrest, List.length_cons, List.range'_succ, List.map_cons]

theorem numbered_ofSpots {around : Chain} {spots : List Spot}
    (h : ∀ spot ∈ spots, ∀ next, Numbered next (ofSpot around next spot)) (next : Nat) :
    Numbered next (ofSpots around next spots) := by
  induction spots generalizing next with
  | nil => rfl
  | cons spot rest ih =>
      obtain ⟨hspot, hrest⟩ := List.forall_mem_cons.mp h
      rw [ofSpots]
      exact (hspot next).append (ih hrest _)

theorem numbered_ofSpot (around : Chain) (next : Nat) (spot : Spot) :
    Numbered next (ofSpot around next spot) := by
  induction spot using Spot.induction generalizing around next with
  | step spot ih =>
      rw [ofSpot_eq]
      cases spot.kind with
      | leaf => rfl
      | array => exact numbered_ofSpots (fun child hchild => ih child hchild around) next
      | object =>
          exact Numbered.cons rfl (numbered_ofSpots (fun child hchild => ih child hchild _) _)

theorem numbered_documentOrder (document : Json) : Numbered 0 (documentOrder document) := by
  rw [documentOrder_eq]
  exact Numbered.cons rfl (numbered_ofSpots (fun spot _ next => numbered_ofSpot _ next spot) _)

theorem Numbered.nodeId?_of_getElem? {next i : Nat} {chains : List Chain} {chain : Chain}
    (h : Numbered next chains) (hchain : chains[i]? = some chain) :
    nodeId? chain = some (next + i) := by
  have hlt := (List.getElem?_eq_some_iff.mp hchain).1
  have hget : (chains.map nodeId?)[i]? = some (nodeId? chain) := by
    rw [List.getElem?_map, hchain]
    rfl
  rw [h, List.getElem?_map, List.getElem?_range' hlt] at hget
  simpa using hget.symm

/-! ## Enclosing chains -/

theorem Closed.append {known first second : List Chain} (hfirst : Closed known first)
    (hsecond : Closed (first.reverse ++ known) second) : Closed known (first ++ second) := by
  induction first generalizing known with
  | nil => exact hsecond
  | cons chain rest ih =>
      refine ⟨hfirst.1, ih hfirst.2 ?_⟩
      simpa using hsecond

theorem closed_ofSpots {spots : List Spot} {around : Chain}
    (h : ∀ spot ∈ spots, ∀ known next, around ∈ known → Closed known (ofSpot around next spot))
    {known : List Chain} (next : Nat) (haround : around ∈ known) :
    Closed known (ofSpots around next spots) := by
  induction spots generalizing known next with
  | nil => trivial
  | cons spot rest ih =>
      obtain ⟨hspot, hrest⟩ := List.forall_mem_cons.mp h
      rw [ofSpots]
      exact (hspot known next haround).append (ih hrest _ (by simp [haround]))

theorem closed_ofSpot {around : Chain} {known : List Chain} (next : Nat) (spot : Spot)
    (haround : around ∈ known) : Closed known (ofSpot around next spot) := by
  induction spot using Spot.induction generalizing around known next with
  | step spot ih =>
      rw [ofSpot_eq]
      cases spot.kind with
      | leaf => exact ⟨haround, trivial⟩
      | array => exact closed_ofSpots (fun child hchild _ next h => ih child hchild next h) _ haround
      | object =>
          -- For what is inside the object, its own chain is known by now.
          refine ⟨haround, closed_ofSpots ?_ _ (by simp)⟩
          exact fun child hchild _ next h => ih child hchild next h

theorem Closed.tail_mem {known chains : List Chain} (h : Closed known chains) {i : Nat}
    {chain : Chain} (hchain : chains[i]? = some chain) :
    chain.tail ∈ known ∨ ∃ j < i, chains[j]? = some chain.tail := by
  induction chains generalizing known i with
  | nil => simp at hchain
  | cons first rest ih =>
      cases i with
      | zero =>
          obtain rfl : first = chain := by simpa using hchain
          exact Or.inl h.1
      | succ i =>
          -- Known to the rest are the chains known before and the first one.
          rcases ih h.2 (by simpa using hchain) with hmem | ⟨j, hj, htail⟩
          · rcases List.mem_cons.mp hmem with hfirst | hknown
            · exact Or.inr ⟨0, by omega, by simp [hfirst]⟩
            · exact Or.inl hknown
          · exact Or.inr ⟨j + 1, by omega, by simpa using htail⟩

/-- What is below a node that is not the document is an earlier chain. -/
theorem tail_of_getElem?_documentOrder {document : Json} {i : Nat} {chain : Chain}
    (hchain : (documentOrder document)[i + 1]? = some chain) :
    ∃ j < i + 1, (documentOrder document)[j]? = some chain.tail := by
  rw [documentOrder_eq] at hchain ⊢
  have hclosed : Closed [root document]
      (ofSpots (root document) 1 (Spot.root document).children) :=
    closed_ofSpots (fun spot _ _ next h => closed_ofSpot next spot h) _ (by simp)
  rw [List.getElem?_cons_succ] at hchain
  rcases hclosed.tail_mem hchain with hroot | ⟨j, hj, htail⟩
  · refine ⟨0, by omega, ?_⟩
    rw [List.mem_singleton.mp hroot]
    rfl
  · exact ⟨j + 1, by omega, by simpa using htail⟩

/-! ## Links -/

theorem linked_ofSpot {document : Json} {outer : Visit} {around : Chain} {next : Nat} {spot : Spot}
    (haround : Linked document (outer :: around)) (hinside : outer.spot.DirectlyInside spot) :
    ∀ chain ∈ ofSpot (outer :: around) next spot, Linked document chain := by
  induction spot using Spot.induction generalizing outer around next with
  | step spot ih =>
      intro chain hchain
      rw [ofSpot_eq] at hchain
      cases hkind : spot.kind with
      | leaf =>
          rw [hkind] at hchain
          obtain rfl := List.mem_singleton.mp hchain
          exact Linked.node haround (by simp [hkind]) hinside
      | array =>
          rw [hkind] at hchain
          -- A grouping array is passed through: its items are inside the same node.
          obtain ⟨child, hchild, first, hmem⟩ := mem_ofSpots hchain
          exact ih child hchild haround (hinside.item hkind hchild) chain hmem
      | object =>
          rw [hkind] at hchain
          have hnode : Linked document ({ id := next, spot } :: outer :: around) :=
            Linked.node haround (by simp [hkind]) hinside
          rcases List.mem_cons.mp hchain with rfl | hchildren
          · exact hnode
          · obtain ⟨child, hchild, first, hmem⟩ := mem_ofSpots hchildren
            exact ih child hchild hnode (Spot.DirectlyInside.child hchild) chain hmem

/-- Every chain leads from its node down to the document without a gap. -/
theorem linked_of_mem_documentOrder {document : Json} {chain : Chain}
    (hchain : chain ∈ documentOrder document) : Linked document chain := by
  rw [documentOrder_eq] at hchain
  rcases List.mem_cons.mp hchain with rfl | hchildren
  · exact Linked.root
  · obtain ⟨spot, hspot, first, hmem⟩ := mem_ofSpots hchildren
    exact linked_ofSpot Linked.root (Spot.DirectlyInside.child hspot) chain hmem

end Chain

end LinkedPath
