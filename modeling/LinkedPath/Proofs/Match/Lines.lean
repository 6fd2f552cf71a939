import LinkedPath.Match.Selection
import LinkedPath.Proofs.Match.Descent
import LinkedPath.Proofs.Match.Embedding
import LinkedPath.Proofs.Trace.Lines

/-!
# Matching along a line

Whether a selector matches the trace of a node depends on nothing but the line
of the node: on the keys and the values from the node out to the document.
`selects_trace_iff` says so, and `resolve?_trace` says the same of the value
that is handed out.  Two documents in which nodes have lines of equal effect
can then be compared without looking at their pointers.  And the selected nodes
are those of the linked chains that the selector fits, whatever the numbers of
the visits (`selectsAt_iff`, `mem_allOf_iff`).
-/

namespace LinkedPath

namespace NodeTest

/-- The test holds at a spot. -/
def accepts (expander : Expander) (test : NodeTest) (spot : Spot) : Bool :=
  (match test.name? with
    | some name => expander.accepts spot.key name
    | none => true) &&
  test.predicates.all fun predicate => predicate.holds expander spot.value

/-- The test holds at a position of a line; position 0 is the document. -/
def acceptsAt (expander : Expander) (line : List Spot) (test : NodeTest) (position : Nat) :
    Bool :=
  match line.reverse[position]? with
  | some spot => test.accepts expander spot
  | none => false

variable {expander : Expander} {document : Json} {chain : Chain}

/-- A test looks at the key and the value of a node. -/
theorem passes_entry {visit : Visit} (h : visit.entry.value? document = some visit.spot.value)
    (test : NodeTest) : test.passes expander document visit.entry = test.accepts expander visit.spot := by
  rw [passes, accepts, h]
  congr 1
  cases test.predicates with
  | nil => rfl
  | cons first rest => rfl

theorem passesAt_trace (hwf : document.WellFormed) (h : Chain.Linked document chain)
    (test : NodeTest) (position : Nat) :
    test.passesAt expander document chain.trace.reverse.toArray position =
      test.acceptsAt expander chain.line position := by
  rw [passesAt, acceptsAt, List.getElem?_toArray, Chain.trace, Chain.line, ← List.map_reverse,
    ← List.map_reverse, List.getElem?_map, List.getElem?_map]
  cases hvisit : chain.reverse[position]? with
  | none => rfl
  | some visit =>
      have hmem : visit ∈ chain := List.mem_reverse.mp (List.mem_of_getElem? hvisit)
      exact passes_entry ((h.reaches visit hmem).at? hwf) test

end NodeTest

namespace Chain

variable {document : Json} {chain : Chain}

theorem Linked.ne_nil (h : Linked document chain) : chain ≠ [] := by
  cases h <;> exact List.cons_ne_nil _ _

/-- A node under the type keyword is a member of the node around it. -/
theorem Linked.member?_type (hwf : document.WellFormed) {visit outer : Visit} {around : Chain}
    (h : Linked document (visit :: outer :: around)) (hkey : visit.spot.key = Keyword.type) :
    outer.spot.value.member? Keyword.type = some visit.spot.value := by
  have houter := (h.reaches outer (List.mem_cons_of_mem _ List.mem_cons_self)).at? hwf
  cases h with
  | node _ _ hinside =>
      cases hinside with
      | child hchild =>
          obtain ⟨members, hvalue, hmember⟩ := Spot.exists_member_of_mem_children hchild hkey
          rw [hvalue] at houter ⊢
          exact Json.child?_of_member (hwf.at? houter) hmember
      | item _ hkind hchild =>
          -- The container would be an object, and here it is an array.
          obtain ⟨members, hvalue, _⟩ := Spot.exists_member_of_mem_children hchild hkey
          obtain ⟨⟨items, hitems⟩, _⟩ := Spot.kind_eq_array_iff.mp hkind
          rw [hitems] at hvalue
          contradiction

end Chain

namespace Compiled

variable {expander : Expander} {document : Json} {query : Compiled} {chain : Chain}

/-- The selector matches a line. -/
def Fits (expander : Expander) (query : Compiled) (line : List Spot) : Prop :=
  query.isVacuous = false ∧
    Search.Fits (NodeTest.acceptsAt expander line) query.steps line.length true

theorem selects_iff_run {trace : Trace} (h : trace ≠ []) :
    query.selects expander document trace = true ↔
      query.isVacuous = false ∧
        Search.run (NodeTest.passesAt expander document trace.reverse.toArray) query.steps
          trace.length = true := by
  rw [selects, List.isEmpty_eq_false_iff.mpr h]
  simp

/-- A selector matches a trace when it matches the line of the node. -/
theorem selects_trace_iff (hwf : document.WellFormed) (h : Chain.Linked document chain) :
    query.selects expander document chain.trace = true ↔ query.Fits expander chain.line := by
  have hne : chain.trace ≠ [] := by simpa [Chain.trace] using h.ne_nil
  have hlength : chain.trace.length = chain.line.length := by simp [Chain.trace]
  rw [selects_iff_run hne, Search.run_iff, Fits, hlength]
  refine and_congr_right' (Search.fits_congr ?_)
  intro test _ position _
  exact NodeTest.passesAt_trace hwf h test position

/-- The value that a line hands out: the type that the node around the node has,
if that is asked for, and else the value of the node. -/
def handsOut? (query : Compiled) (line : List Spot) : Option Json :=
  let own := line.head?.map Spot.value
  if query.selectsType then (line.tail.head?.bind fun spot => spot.value.member? Keyword.type).or own
  else own

/-- What a trace hands out is handed out by the line of the node. -/
theorem resolve?_trace (hwf : document.WellFormed) (h : Chain.Linked document chain) :
    query.resolve? document chain.trace = query.handsOut? chain.line := by
  have hvalue : ∀ visit ∈ chain, visit.entry.value? document = some visit.spot.value :=
    fun visit hvisit => (h.reaches visit hvisit).at? hwf
  cases h with
  | root => rfl
  | @node visit outer around _ _ _ =>
      have hown : visit.entry.value? document = some visit.spot.value :=
        hvalue visit List.mem_cons_self
      have houter : outer.entry.value? document = some outer.spot.value :=
        hvalue outer (List.mem_cons_of_mem _ List.mem_cons_self)
      show (if query.selectsType then
          ((outer.entry.value? document).bind fun value => value.member? Keyword.type).or
            (visit.entry.value? document)
        else visit.entry.value? document) = _
      rw [hown, houter]
      rfl

/-- A node under the type keyword hands out its own value, whether the type of
the node around it is asked for or not. -/
theorem resolve?_of_key_eq_type (hwf : document.WellFormed) {trace : Trace}
    (htrace : trace ∈ traces document)
    (hkey : trace.node?.map Entry.key = some Keyword.type) :
    query.resolve? document trace = trace.node?.bind fun entry => entry.value? document := by
  obtain ⟨chain, hlinked, rfl⟩ := exists_linked_of_mem_traces htrace
  rw [resolve?_trace hwf hlinked, handsOut?]
  cases hlinked with
  | root =>
      have hne : Keyword.document ≠ Keyword.type := by decide
      exact absurd (Option.some.inj hkey) hne
  | @node visit outer around haround hkind hinside =>
      have hlinked := Chain.Linked.node haround hkind hinside
      have hown : visit.entry.value? document = some visit.spot.value :=
        (hlinked.reaches visit List.mem_cons_self).at? hwf
      have hmember := hlinked.member?_type hwf (Option.some.inj hkey)
      show (if query.selectsType then (outer.spot.value.member? Keyword.type).or
        (some visit.spot.value) else some visit.spot.value) = visit.entry.value? document
      rw [hmember, hown]
      exact ite_self _

/-! ## Selected nodes -/

/-- The selector matches the node at a place of the document. -/
def SelectsAt (expander : Expander) (document : Json) (query : Compiled) (pointer : Pointer) :
    Prop :=
  ∃ trace ∈ traces document, query.selects expander document trace = true ∧
    trace.node?.map Entry.pointer = some pointer

/-- Matching traces stand for linked chains that the selector fits. -/
theorem exists_trace_iff (hwf : document.WellFormed) {ofTrace : Trace → Prop}
    (ofLine : List Spot → Prop)
    (h : ∀ chain, Chain.Linked document chain → (ofTrace chain.trace ↔ ofLine chain.line)) :
    (∃ trace ∈ traces document, query.selects expander document trace = true ∧ ofTrace trace) ↔
      ∃ chain, Chain.Linked document chain ∧ query.Fits expander chain.line ∧
        ofLine chain.line := by
  constructor
  · rintro ⟨trace, htrace, hselects, hof⟩
    obtain ⟨chain, hlinked, rfl⟩ := exists_linked_of_mem_traces htrace
    exact ⟨chain, hlinked, (selects_trace_iff hwf hlinked).mp hselects, (h chain hlinked).mp hof⟩
  · rintro ⟨chain, hlinked, hfits, hof⟩
    obtain ⟨other, hother, hline⟩ := Chain.exists_mem_documentOrder_of_linked hlinked
    have hlinked := Chain.linked_of_mem_documentOrder hother
    rw [← hline] at hfits hof
    refine ⟨other.trace, ?_, (selects_trace_iff hwf hlinked).mpr hfits, (h other hlinked).mpr hof⟩
    rw [traces_eq]
    exact List.mem_map_of_mem hother

theorem selectsAt_iff (hwf : document.WellFormed) {pointer : Pointer} :
    query.SelectsAt expander document pointer ↔
      ∃ chain, Chain.Linked document chain ∧ query.Fits expander chain.line ∧
        chain.line.head?.map Spot.pointer = some pointer := by
  refine exists_trace_iff hwf (fun line => line.head?.map Spot.pointer = some pointer) ?_
  intro chain _
  cases chain with
  | nil => rfl
  | cons visit around => rfl

theorem mem_allOf_iff (hwf : document.WellFormed) {value : Json} :
    value ∈ query.allOf expander document (traces document) ↔
      ∃ chain, Chain.Linked document chain ∧ query.Fits expander chain.line ∧
        query.handsOut? chain.line = some value := by
  rw [allOf, matching, List.mem_filterMap]
  simp only [List.mem_filter, and_assoc]
  refine exists_trace_iff hwf (fun line => query.handsOut? line = some value) ?_
  intro chain hlinked
  rw [resolve?_trace hwf hlinked]

/-! ## The step for the document -/

/-- A selector fits a line when its steps land right above a place where the
test for the document holds. -/
theorem fits_iff_lands {line : List Spot} :
    query.Fits expander line ↔ query.isVacuous = false ∧
      ∃ position,
        Search.Lands (NodeTest.acceptsAt expander line) query.path line.length true
          (position + 1) ∧
        (rootTest query.rootPredicates).acceptsAt expander line position = true := by
  rw [Fits, steps, Search.fits_concat_node_iff]

/-- Nothing fits a line without a spot. -/
theorem Fits.ne_nil {line : List Spot} (h : query.Fits expander line) : line ≠ [] := by
  rintro rfl
  obtain ⟨_, position, hlands, _⟩ := fits_iff_lands.mp h
  exact absurd hlands.le (Nat.not_succ_le_zero _)

/-- A selector that matches the document itself tests its members, so the
document is no array. -/
theorem Fits.isArray_root (h : query.Fits expander [Spot.root document]) :
    document.isArray = false := by
  obtain ⟨hvacuous, position, hlands, htest⟩ := fits_iff_lands.mp h
  have hle := hlands.le
  rw [List.length_singleton] at hle
  obtain rfl : position = 0 := by omega
  have hpath : query.path.all Step.isChild = true := by
    rw [← Bool.not_eq_false]
    intro hnode
    exact absurd (hlands.lt hnode) (Nat.lt_irrefl _)
  rw [isVacuous, hpath, Bool.and_true, List.isEmpty_eq_false_iff] at hvacuous
  obtain ⟨predicate, hpredicate⟩ := List.exists_mem_of_ne_nil _ hvacuous
  -- No predicate holds of an array.
  have hholds : predicate.holds expander document = true := by
    rw [NodeTest.acceptsAt] at htest
    exact List.all_eq_true.mp (Bool.and_eq_true_iff.mp htest).2 predicate hpredicate
  cases document with
  | array items => contradiction
  | _ => rfl

end Compiled

end LinkedPath
