import LinkedPath.Proofs.Trace.Pointers

/-!
# Lines of descent

The line of a chain is what remains when the numbers of the visits are
forgotten: the spots from the node out to the document.  The chains of a
document were seen to be linked; here is the converse.  Every linked chain is,
but for its numbers, the chain of a node (`exists_mem_documentOrder_of_linked`),
so what a document contains below some node can be found without following the
walk.
-/

namespace LinkedPath

namespace Chain

/-- The spots of a chain, innermost first. -/
def line (chain : Chain) : List Spot := chain.map Visit.spot

@[simp] theorem line_append (inner around : Chain) :
    line (inner ++ around) = line inner ++ line around :=
  List.map_append

@[simp] theorem length_line (chain : Chain) : chain.line.length = chain.length :=
  List.length_map _

/-- What a spot contributes is among what the children of the spot around it
contribute. -/
theorem exists_subset_of_directlyInside {outer spot : Spot} (h : outer.DirectlyInside spot)
    (around : Chain) (next : Nat) :
    ∃ first, ofSpot around first spot ⊆ ofSpots around next outer.children := by
  induction h with
  | child hchild => exact subset_ofSpots around hchild next
  | item _ hkind hchild ih =>
      -- A grouping array contributes what its items contribute.
      obtain ⟨first, hfirst⟩ := ih
      rw [ofSpot_eq, hkind] at hfirst
      obtain ⟨second, hsecond⟩ := subset_ofSpots around hchild first
      exact ⟨second, List.Subset.trans hsecond hfirst⟩

theorem cons_mem_ofSpot {spot : Spot} (hkind : spot.kind ≠ .array) (around : Chain) (next : Nat) :
    { id := next, spot } :: around ∈ ofSpot around next spot := by
  rw [ofSpot_eq]
  cases hspot : spot.kind with
  | array => exact absurd hspot hkind
  | leaf => exact List.mem_singleton_self _
  | object => exact List.mem_cons_self

/-- Below the node of a contributed chain every node directly inside follows. -/
theorem exists_cons_mem_ofSpot {spot inner : Spot} (hinner : inner.kind ≠ .array)
    {around : Chain} {next : Nat} {visit : Visit} {outer : Chain}
    (hchain : visit :: outer ∈ ofSpot around next spot) (hinside : visit.spot.DirectlyInside inner) :
    ∃ id, { id, spot := inner } :: visit :: outer ∈ ofSpot around next spot := by
  induction spot using Spot.induction generalizing around next with
  | step spot ih =>
      have hbelow : ∀ {around next}, visit :: outer ∈ ofSpots around next spot.children →
          ∃ id, { id, spot := inner } :: visit :: outer ∈ ofSpots around next spot.children := by
        intro around next hmem
        obtain ⟨child, hchild, first, hmem, hsubset⟩ := exists_subset_of_mem_ofSpots hmem
        obtain ⟨id, hnext⟩ := ih child hchild hmem
        exact ⟨id, hsubset hnext⟩
      rw [ofSpot_eq] at hchain ⊢
      cases hkind : spot.kind with
      | leaf =>
          rw [hkind] at hchain
          obtain ⟨rfl, rfl⟩ := List.cons.inj (List.mem_singleton.mp hchain)
          exact absurd hkind hinside.kind_ne_leaf
      | array =>
          rw [hkind] at hchain
          exact hbelow hchain
      | object =>
          rw [hkind] at hchain
          rcases List.mem_cons.mp hchain with heq | hmem
          · obtain ⟨rfl, rfl⟩ := List.cons.inj heq
            obtain ⟨first, hsubset⟩ := exists_subset_of_directlyInside hinside
              ({ id := next, spot } :: outer) (next + 1)
            exact ⟨first, List.mem_cons_of_mem _ (hsubset (cons_mem_ofSpot hinner _ first))⟩
          · obtain ⟨id, hmem⟩ := hbelow hmem
            exact ⟨id, List.mem_cons_of_mem _ hmem⟩

theorem exists_cons_mem_documentOrder {document : Json} {inner : Spot} (hinner : inner.kind ≠ .array)
    {visit : Visit} {outer : Chain} (hchain : visit :: outer ∈ documentOrder document)
    (hinside : visit.spot.DirectlyInside inner) :
    ∃ id, { id, spot := inner } :: visit :: outer ∈ documentOrder document := by
  rw [documentOrder_eq] at hchain ⊢
  rcases List.mem_cons.mp hchain with heq | hmem
  · obtain ⟨rfl, rfl⟩ := List.cons.inj heq
    obtain ⟨first, hsubset⟩ := exists_subset_of_directlyInside hinside (root document) 1
    exact ⟨first, List.mem_cons_of_mem _ (hsubset (cons_mem_ofSpot hinner _ first))⟩
  · obtain ⟨child, _, first, hmem, hsubset⟩ := exists_subset_of_mem_ofSpots hmem
    obtain ⟨id, hnext⟩ := exists_cons_mem_ofSpot hinner hmem hinside
    exact ⟨id, List.mem_cons_of_mem _ (hsubset hnext)⟩

/-- Every linked chain has the line of a chain of the document. -/
theorem exists_mem_documentOrder_of_linked {document : Json} {chain : Chain}
    (h : Linked document chain) : ∃ other ∈ documentOrder document, other.line = chain.line := by
  induction h with
  | root => exact ⟨root document, by rw [documentOrder_eq]; exact List.mem_cons_self, rfl⟩
  | @node visit outer around _ hkind hinside ih =>
      obtain ⟨other, hother, hline⟩ := ih
      obtain ⟨first, rest, rfl, hfirst, hrest⟩ := List.map_eq_cons_iff.mp hline
      rw [← hfirst] at hinside
      obtain ⟨id, hmem⟩ := exists_cons_mem_documentOrder hkind hother hinside
      exact ⟨_, hmem, congrArg (List.cons visit.spot) hline⟩

end Chain

end LinkedPath
