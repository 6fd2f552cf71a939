import LinkedPath.Proofs.Match.Lines
import LinkedPath.Proofs.Match.Resolution
import LinkedPath.Proofs.Query.Assembly
import LinkedPath.Proofs.Trace.Subdocument

/-!
# Selectors in a row

A selector that follows another one behind a combinator selects below every
node of that one what it selects in the value of the node as a document of its
own.  The steps of the second selector come first, so its descent lands right
above the node where the steps of the first selector begin (`Chained.fits_iff`).
Moved down to the value of that node, the descent lands right above the root
(`lands_under_iff`), and the step for the document cannot stand anywhere else
(`Chain.Linked.eq_zero_of_accepts`).  So the two selectors select in turn, the
nodes (`Chained.selectsAt_iff`) and the values (`Chained.mem_allOf_iff`).
-/

namespace LinkedPath

namespace NodeTest

variable {expander : Expander} {test : NodeTest} {front back : List Spot} {position : Nat}

theorem acceptsAt_append_of_lt (h : position < back.length) :
    test.acceptsAt expander (front ++ back) position = test.acceptsAt expander back position := by
  rw [acceptsAt, acceptsAt, List.reverse_append, List.getElem?_append_left (by simpa using h)]

theorem acceptsAt_append_add :
    test.acceptsAt expander (front ++ back) (position + back.length) =
      test.acceptsAt expander front position := by
  rw [acceptsAt, acceptsAt, List.reverse_append, List.getElem?_append_right (by simp)]
  simp

/-- A test does not look at the trail. -/
theorem acceptsAt_map_under (trail : List String) :
    test.acceptsAt expander (front.map (Spot.under trail)) position =
      test.acceptsAt expander front position := by
  rw [acceptsAt, acceptsAt, ← List.map_reverse, List.getElem?_map]
  cases front.reverse[position]? with
  | none => rfl
  | some spot => rfl

end NodeTest

/-! ## The root of a value -/

namespace Chain

/-- In a document that is no array and spares the reserved name, only the
document itself is accepted for that name. -/
theorem Linked.eq_zero_of_accepts {expander : Expander} {document : Json} {chain : Chain}
    (hwf : document.WellFormed) (hspares : document.SparesDocumentName expander)
    (harray : document.isArray = false) (h : Linked document chain) {position : Nat} {visit : Visit}
    (hvisit : chain.reverse[position]? = some visit)
    (haccepts : expander.accepts visit.spot.key Keyword.document = true) : position = 0 := by
  have hreaches := h.reaches visit (List.mem_reverse.mp (List.mem_of_getElem? hvisit))
  have htop := hreaches.topLevel hwf hspares haccepts
  have hpointer : visit.spot.pointer = [] := by
    by_contra hne
    obtain ⟨items, hitems⟩ := htop [] visit.spot.pointer rfl hne
    rw [Option.some.inj hitems] at harray
    contradiction
  cases position with
  | zero => rfl
  | succ position =>
      -- Around any other node there is one with a shorter pointer.
      have hlt := (List.getElem?_eq_some_iff.mp hvisit).1
      have houter : chain.reverse[position]? = some chain.reverse[position] :=
        List.getElem?_eq_getElem (Nat.lt_of_succ_lt hlt)
      have hlength := (h.directlyInside_of_getElem? houter hvisit).length_pointer_lt
      rw [hpointer] at hlength
      exact absurd hlength (Nat.not_lt_zero _)

end Chain

namespace Compiled

variable {expander : Expander} {document : Json} {query outer inner chained : Compiled}

/-! ## Two selectors in a row -/

/-- The selector consists of two others with a combinator between them. -/
structure Chained (outer inner chained : Compiled) : Prop where
  path : chained.path = inner.path ++ .child :: outer.path
  rootPredicates : chained.rootPredicates = outer.rootPredicates
  hasNode : inner.path.all Step.isChild = false
  inner_rootPredicates : inner.rootPredicates = []

theorem chained_ofParts {first : Part} (hfirst : first.bringsNode = true) (parts rest : List Part)
    (source source' source'' : String) :
    Chained (ofParts expander source parts) (ofParts expander source' (first :: rest))
      (ofParts expander source'' (parts ++ [.child] ++ first :: rest)) := by
  obtain ⟨happend, hnode, hroot⟩ := assemble_append expander hfirst (parts ++ [.child]) rest
  rw [assemble_concat_child] at happend
  have hpath := congrArg Draft.path happend
  have hrootPredicates := congrArg Draft.rootPredicates happend
  exact ⟨hpath, hrootPredicates, hnode, hroot⟩

theorem Chained.isVacuous (h : Chained outer inner chained) : chained.isVacuous = false := by
  rw [Compiled.isVacuous, h.path, List.all_append, h.hasNode, Bool.false_and, Bool.and_false]

theorem Chained.inner_isVacuous (h : Chained outer inner chained) : inner.isVacuous = false := by
  rw [Compiled.isVacuous, h.hasNode, Bool.and_false]

theorem Chained.steps (h : Chained outer inner chained) :
    chained.steps = inner.path ++ .child :: outer.steps := by
  rw [Compiled.steps, Compiled.steps, h.path, h.rootPredicates, List.append_assoc]
  rfl

/-- The descent of the second selector lands where the first one begins. -/
theorem Chained.fits_iff (h : Chained outer inner chained) {line : List Spot} :
    chained.Fits expander line ↔
      ∃ landing,
        Search.Lands (NodeTest.acceptsAt expander line) inner.path line.length true landing ∧
          Search.Fits (NodeTest.acceptsAt expander line) outer.steps landing true := by
  rw [Fits, h.steps, Search.fits_append_iff (List.cons_ne_nil _ _) fun _ _ => Iff.rfl]
  exact and_iff_right h.isVacuous

/-- In the upper part of a line the first selector sees that part alone. -/
theorem fits_of_append_iff (houter : outer.isVacuous = false) {front back : List Spot} :
    Search.Fits (NodeTest.acceptsAt expander (front ++ back)) outer.steps back.length true ↔
      outer.Fits expander back := by
  rw [Fits, and_iff_right houter]
  exact Search.fits_congr fun _ _ _ hlt => NodeTest.acceptsAt_append_of_lt hlt

/-- A descent down to a node is a descent down to the root of its value. -/
theorem lands_under_iff {steps : List Step} {front back : List Spot} (hback : back ≠ [])
    (trail : List String) (root : Spot) :
    Search.Lands (NodeTest.acceptsAt expander (front.map (Spot.under trail) ++ back)) steps
        (front.map (Spot.under trail) ++ back).length true back.length ↔
      Search.Lands (NodeTest.acceptsAt expander (front ++ [root])) steps
        (front ++ [root]).length true 1 := by
  obtain ⟨distance, hdistance⟩ : ∃ distance, back.length = 1 + distance :=
    ⟨back.length - 1, by have := List.length_pos_iff.mpr hback; omega⟩
  have hlength : (front.map (Spot.under trail) ++ back).length =
      (front ++ [root]).length + distance := by
    simp only [List.length_append, List.length_map, List.length_singleton, hdistance]
    omega
  rw [hlength, hdistance]
  refine Search.lands_shift distance ?_
  intro test position hle _
  -- Between landing and bookmark there are the spots of the front.
  obtain ⟨upper, rfl⟩ : ∃ upper, position = upper + 1 := ⟨position - 1, by omega⟩
  have hback : upper + 1 + distance = upper + back.length := by omega
  have hroot : test.acceptsAt expander (front ++ [root]) (upper + 1) =
      test.acceptsAt expander front upper := NodeTest.acceptsAt_append_add
  rw [hback, hroot, NodeTest.acceptsAt_append_add, NodeTest.acceptsAt_map_under]

/-- What is around a node of a chain is an object, or it is the document; and
there the selector tests members. -/
theorem Fits.isArray_of_linked {front around : Chain} {visit : Visit} (hfront : front ≠ [])
    (hchain : Chain.Linked document (front ++ visit :: around))
    (h : outer.Fits expander (Chain.line (visit :: around))) :
    visit.spot.value.isArray = false := by
  have htail : visit ∈ (front ++ visit :: around).tail := by
    rw [List.tail_append_of_ne_nil hfront]
    exact List.mem_append_right _ List.mem_cons_self
  rcases hchain.kind_of_mem_tail visit htail with hobject | ⟨rfl, _⟩
  · obtain ⟨members, hmembers⟩ := Spot.kind_eq_object_iff.mp hobject
    rw [hmembers]
    rfl
  · cases around with
    | nil => exact h.isArray_root
    | cons other more =>
        -- Nothing is around the document.
        cases hchain.of_append with
        | node _ _ hinside => exact absurd hinside.length_pointer_lt (Nat.not_lt_zero _)

theorem rootTest_nil_acceptsAt_zero (front : List Spot) (value : Json) :
    (rootTest []).acceptsAt expander (front ++ [Spot.root value]) 0 = true := by
  rw [NodeTest.acceptsAt_append_of_lt (Nat.lt_succ_self 0)]
  show (expander.accepts Keyword.document Keyword.document && true) = true
  rw [Expander.accepts_iff.mpr (Or.inl rfl)]
  rfl

theorem exists_of_rootTest {predicates : List Predicate} {chain : Chain} {position : Nat}
    (h : (rootTest predicates).acceptsAt expander chain.line position = true) :
    ∃ visit, chain.reverse[position]? = some visit ∧
      expander.accepts visit.spot.key Keyword.document = true := by
  rw [NodeTest.acceptsAt, Chain.line, ← List.map_reverse, List.getElem?_map] at h
  cases hvisit : chain.reverse[position]? with
  | none =>
      rw [hvisit] at h
      contradiction
  | some visit =>
      rw [hvisit] at h
      exact ⟨visit, rfl, (Bool.and_eq_true_iff.mp h).1⟩

/-- A line that two selectors fit in a row goes through a node that the first one
fits, and the second one fits the rest in the value of that node. -/
theorem Chained.exists_of_fits (h : Chained outer inner chained) (houter : outer.isVacuous = false)
    {chain : Chain} (hchain : Chain.Linked document chain)
    (hfits : chained.Fits expander chain.line) :
    ∃ (front : Chain) (visit : Visit) (around : Chain), front ≠ [] ∧
      Chain.Linked document (visit :: around) ∧
      outer.Fits expander (Chain.line (visit :: around)) ∧
      visit.spot.value.isArray = false ∧
      Chain.Linked visit.spot.value (front ++ Chain.root visit.spot.value) ∧
      inner.Fits expander (Chain.line (front ++ Chain.root visit.spot.value)) ∧
      chain = front.map (Visit.under visit.spot.trail) ++ visit :: around := by
  obtain ⟨landing, hlands, hfits⟩ := h.fits_iff.mp hfits
  have hlt := hlands.lt h.hasNode
  rw [Chain.length_line] at hlt
  obtain ⟨upper, back, rfl, rfl⟩ : ∃ upper back, chain = upper ++ back ∧ back.length = landing := by
    refine ⟨chain.take (chain.length - landing), chain.drop (chain.length - landing),
      (List.take_append_drop _ _).symm, ?_⟩
    rw [List.length_drop]
    omega
  rw [Chain.line_append] at hlands hfits
  rw [← Chain.length_line back] at hlands hfits
  have hback := (fits_of_append_iff houter).mp hfits
  cases back with
  | nil => exact absurd rfl hback.ne_nil
  | cons visit around =>
      have hupper : upper ≠ [] := by
        rintro rfl
        exact absurd hlt (Nat.lt_irrefl _)
      have harray := hback.isArray_of_linked hupper hchain
      obtain ⟨front, hfront, rfl⟩ := hchain.exists_map_under harray
      refine ⟨front, visit, around, ?_, hchain.of_append, hback, harray, hfront, ?_, rfl⟩
      · rintro rfl
        exact hupper rfl
      · rw [Chain.line_map_under, lands_under_iff hback.ne_nil _
          (Spot.root visit.spot.value)] at hlands
        rw [fits_iff_lands, Chain.line_append, h.inner_rootPredicates]
        exact ⟨h.inner_isVacuous, 0, hlands, rootTest_nil_acceptsAt_zero _ _⟩

/-- A node that the first selector fits and a node that the second one fits in its
value make a line that both fit in a row. -/
theorem Chained.fits_of_exists (h : Chained outer inner chained) (houter : outer.isVacuous = false)
    {visit : Visit} {around chain : Chain} (hwf : visit.spot.value.WellFormed)
    (hspares : visit.spot.value.SparesDocumentName expander)
    (harray : visit.spot.value.isArray = false)
    (haround : Chain.Linked document (visit :: around))
    (hback : outer.Fits expander (Chain.line (visit :: around)))
    (hchain : Chain.Linked visit.spot.value chain) (hfits : inner.Fits expander chain.line) :
    ∃ front : Chain, front ≠ [] ∧ chain = front ++ Chain.root visit.spot.value ∧
      Chain.Linked document (front.map (Visit.under visit.spot.trail) ++ visit :: around) ∧
      chained.Fits expander
        (Chain.line (front.map (Visit.under visit.spot.trail) ++ visit :: around)) := by
  obtain ⟨_, position, hlands, hroot⟩ := fits_iff_lands.mp hfits
  -- The step for the document stands on the root of the value.
  obtain ⟨top, htop, haccepts⟩ := exists_of_rootTest hroot
  obtain rfl := hchain.eq_zero_of_accepts hwf hspares harray htop haccepts
  obtain ⟨front, rfl⟩ := hchain.exists_append_root
  have hlt := hlands.lt h.hasNode
  refine ⟨front, ?_, rfl, haround.append_map_under harray hchain, ?_⟩
  · rintro rfl
    exact absurd hlt (Nat.lt_irrefl _)
  · rw [Chain.line_append, Chain.line_map_under, h.fits_iff]
    refine ⟨_, ?_, (fits_of_append_iff houter).mpr hback⟩
    rw [lands_under_iff hback.ne_nil _ (Spot.root visit.spot.value)]
    rw [Chain.line_append] at hlands
    exact hlands

/-! ## What the two selectors select -/

theorem pointer_append_under {front around : Chain} {visit : Visit} (hfront : front ≠ []) :
    (Chain.line (front.map (Visit.under visit.spot.trail) ++ visit :: around)).head?.map
        Spot.pointer =
      ((Chain.line (front ++ Chain.root visit.spot.value)).head?.map Spot.pointer).map
        (visit.spot.pointer ++ ·) := by
  cases front with
  | nil => contradiction
  | cons first rest => exact congrArg some (Spot.pointer_under visit.spot.trail first.spot)

/-- Both selectors end in the same step. -/
theorem Chained.selectsType (h : Chained outer inner chained) :
    chained.selectsType = inner.selectsType := by
  have hterminal : chained.terminal? = inner.terminal? := by
    rw [terminal?, terminal?, h.steps]
    show (inner.path ++ _).head? = (inner.path ++ _).head?
    cases hpath : inner.path with
    | nil =>
        have hnode := h.hasNode
        rw [hpath] at hnode
        contradiction
    | cons step rest => rfl
  rw [Compiled.selectsType, Compiled.selectsType, terminalName?, terminalName?, hterminal]

theorem Chained.handsOut?_append_under (h : Chained outer inner chained) {front around : Chain}
    {visit : Visit} (hfront : front ≠ []) :
    chained.handsOut?
        (Chain.line (front.map (Visit.under visit.spot.trail) ++ visit :: around)) =
      inner.handsOut? (Chain.line (front ++ Chain.root visit.spot.value)) := by
  rw [handsOut?, handsOut?, h.selectsType]
  cases front with
  | nil => contradiction
  | cons first rest =>
      cases rest with
      | nil => rfl
      | cons second more => rfl

/-- A selector that ends in no final keyword hands out the selected values
themselves. -/
theorem handsOut?_of_endsInFinal (h : query.endsInFinal = false) (line : List Spot) :
    query.handsOut? line = line.head?.map Spot.value := by
  rw [handsOut?, selectsType_eq_false_of_endsInFinal h]
  rfl

/-- A chain that two selectors fit in a row is a chain that the first one fits,
together with a chain of the value of its node that the second one fits. -/
theorem Chained.exists_iff (h : Chained outer inner chained) (houter : outer.isVacuous = false)
    (hwf : document.WellFormed) (hspares : document.SparesDocumentName expander)
    (seen : List Spot → Prop) (below : Spot → List Spot → Prop)
    (hbelow : ∀ (front : Chain) (visit : Visit) (around : Chain), front ≠ [] →
      (seen (Chain.line (front.map (Visit.under visit.spot.trail) ++ visit :: around)) ↔
        below visit.spot (Chain.line (front ++ Chain.root visit.spot.value)))) :
    (∃ chain, Chain.Linked document chain ∧ chained.Fits expander chain.line ∧ seen chain.line) ↔
      ∃ visit around, Chain.Linked document (visit :: around) ∧
        outer.Fits expander (Chain.line (visit :: around)) ∧
        visit.spot.value.isArray = false ∧
        ∃ chain, Chain.Linked visit.spot.value chain ∧ inner.Fits expander chain.line ∧
          below visit.spot chain.line := by
  constructor
  · rintro ⟨chain, hchain, hfits, hseen⟩
    obtain ⟨front, visit, around, hfront, haround, hback, harray, hinner, hinnerFits, rfl⟩ :=
      h.exists_of_fits houter hchain hfits
    exact ⟨visit, around, haround, hback, harray, _, hinner, hinnerFits,
      (hbelow front visit around hfront).mp hseen⟩
  · rintro ⟨visit, around, haround, hback, harray, chain, hchain, hfits, hseen⟩
    have hat : document.at? visit.spot.pointer = some visit.spot.value :=
      (haround.reaches visit List.mem_cons_self).at? hwf
    obtain ⟨front, hfront, rfl, hlinked, hchained⟩ := h.fits_of_exists houter (hwf.at? hat)
      (hspares.at? hat) harray haround hback hchain hfits
    exact ⟨_, hlinked, hchained, (hbelow front visit around hfront).mpr hseen⟩

theorem Chained.selectsAt_iff (h : Chained outer inner chained) (houter : outer.isVacuous = false)
    (hwf : document.WellFormed) (hspares : document.SparesDocumentName expander)
    {pointer : Pointer} :
    chained.SelectsAt expander document pointer ↔
      ∃ place below value, pointer = place ++ below ∧ outer.SelectsAt expander document place ∧
        document.at? place = some value ∧ value.isArray = false ∧
        inner.SelectsAt expander value below := by
  have hexists := h.exists_iff houter hwf hspares
    (fun line => line.head?.map Spot.pointer = some pointer)
    (fun spot line =>
      ∃ below, line.head?.map Spot.pointer = some below ∧ spot.pointer ++ below = pointer)
    (fun front visit around hfront => by
      rw [pointer_append_under hfront, Option.map_eq_some_iff])
  refine (Compiled.selectsAt_iff hwf).trans (hexists.trans ?_)
  constructor
  · rintro ⟨visit, around, haround, hback, harray, chain, hchain, hfits, below, hbelow, rfl⟩
    have hat : document.at? visit.spot.pointer = some visit.spot.value :=
      (haround.reaches visit List.mem_cons_self).at? hwf
    refine ⟨visit.spot.pointer, below, visit.spot.value, rfl, ?_, hat, harray, ?_⟩
    · exact (Compiled.selectsAt_iff hwf).mpr ⟨visit :: around, haround, hback, rfl⟩
    · exact (Compiled.selectsAt_iff (hwf.at? hat)).mpr ⟨chain, hchain, hfits, hbelow⟩
  · rintro ⟨place, below, value, rfl, hplace, hat, harray, hbelow⟩
    obtain ⟨back, haround, hback, hpointer⟩ := (Compiled.selectsAt_iff hwf).mp hplace
    obtain ⟨chain, hchain, hfits, hinner⟩ := (Compiled.selectsAt_iff (hwf.at? hat)).mp hbelow
    cases back with
    | nil => contradiction
    | cons visit around =>
        obtain rfl : visit.spot.pointer = place := Option.some.inj hpointer
        rw [(haround.reaches visit List.mem_cons_self).at? hwf] at hat
        obtain rfl := Option.some.inj hat
        exact ⟨visit, around, haround, hback, harray, chain, hchain, hfits, below, hinner, rfl⟩

theorem Chained.mem_allOf_iff (h : Chained outer inner chained) (houter : outer.isVacuous = false)
    (hwf : document.WellFormed) (hspares : document.SparesDocumentName expander)
    (hfinal : outer.endsInFinal = false) {value : Json} :
    value ∈ chained.allOf expander document (traces document) ↔
      ∃ found ∈ outer.allOf expander document (traces document), found.isArray = false ∧
        value ∈ inner.allOf expander found (traces found) := by
  have hexists := h.exists_iff houter hwf hspares
    (fun line => chained.handsOut? line = some value)
    (fun _ line => inner.handsOut? line = some value)
    (fun front visit around hfront => by rw [h.handsOut?_append_under hfront])
  refine (Compiled.mem_allOf_iff hwf).trans (hexists.trans ?_)
  constructor
  · rintro ⟨visit, around, haround, hback, harray, chain, hchain, hfits, hhands⟩
    have hwfValue := hwf.at? ((haround.reaches visit List.mem_cons_self).at? hwf)
    refine ⟨visit.spot.value, ?_, harray, ?_⟩
    · exact (Compiled.mem_allOf_iff hwf).mpr
        ⟨visit :: around, haround, hback, handsOut?_of_endsInFinal hfinal _⟩
    · exact (Compiled.mem_allOf_iff hwfValue).mpr ⟨chain, hchain, hfits, hhands⟩
  · rintro ⟨found, hfound, harray, hvalue⟩
    have hwfFound := wellFormed_of_mem_allOf hwf hfound
    obtain ⟨back, haround, hback, hhands⟩ := (Compiled.mem_allOf_iff hwf).mp hfound
    obtain ⟨chain, hchain, hfits, hinner⟩ := (Compiled.mem_allOf_iff hwfFound).mp hvalue
    rw [handsOut?_of_endsInFinal hfinal] at hhands
    cases back with
    | nil => contradiction
    | cons visit around =>
        obtain rfl : visit.spot.value = found := Option.some.inj hhands
        exact ⟨visit, around, haround, hback, harray, chain, hchain, hfits, hinner⟩

end Compiled

end LinkedPath
