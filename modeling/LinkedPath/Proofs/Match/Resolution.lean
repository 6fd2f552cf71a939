import LinkedPath.Match.Selection
import LinkedPath.Proofs.Trace.Pointers

/-!
# Values of matching traces

Every trace of a well-formed document hands out a value, and that value is well
formed.  So the first trace that matches and hands out something is the first
one that matches, and it makes no difference whether the traces are listed
first or the walk ends with the match.
-/

namespace LinkedPath

/-- A part of a value that a pointer or a key leads to is well formed. -/
theorem Json.WellFormed.member? {value inner : Json} {key : String} (hwf : value.WellFormed)
    (h : value.member? key = some inner) : inner.WellFormed := by
  cases value with
  | object members => exact hwf.of_member (Keyed.mem_of_lookup_eq_some h)
  | _ => simp [Json.member?] at h

namespace Compiled

variable {expander : Expander} {document : Json} {query : Compiled}

/-- The type keyword is a final one. -/
theorem selectsType_eq_false_of_endsInFinal (h : query.endsInFinal = false) :
    query.selectsType = false := by
  rw [← Bool.not_eq_true, selectsType, beq_iff_eq]
  intro hname
  rw [endsInFinal, hname] at h
  revert h
  decide

theorem resolve?_of_selectsType_eq_false (h : query.selectsType = false) (trace : Trace) :
    query.resolve? document trace = trace.node?.bind fun entry => entry.value? document := by
  rw [resolve?, h]
  rfl

theorem wellFormed_of_enclosingType? {trace : Trace} {value : Json}
    (hwf : document.WellFormed) (h : enclosingType? document trace = some value) :
    value.WellFormed := by
  obtain ⟨parent, _, h⟩ := Option.bind_eq_some_iff.mp h
  obtain ⟨outer, houter, hvalue⟩ := Option.bind_eq_some_iff.mp h
  exact (hwf.at? houter).member? hvalue

theorem node_value?_of_mem_traces {trace : Trace} (hwf : document.WellFormed)
    (htrace : trace ∈ traces document) :
    ∃ value, (trace.node?.bind fun entry => entry.value? document) = some value ∧
      value.WellFormed := by
  obtain ⟨chain, hlinked, rfl⟩ := exists_linked_of_mem_traces htrace
  cases chain with
  | nil => cases hlinked
  | cons visit around =>
      have hvalue : document.at? visit.spot.pointer = some visit.spot.value :=
        (hlinked.reaches visit List.mem_cons_self).at? hwf
      exact ⟨visit.spot.value, hvalue, hwf.at? hvalue⟩

/-- Every trace of a well-formed document hands out a well-formed value. -/
theorem resolve?_of_mem_traces (query : Compiled) {trace : Trace} (hwf : document.WellFormed)
    (htrace : trace ∈ traces document) :
    ∃ value, query.resolve? document trace = some value ∧ value.WellFormed := by
  obtain ⟨own, hown, hwfOwn⟩ := node_value?_of_mem_traces hwf htrace
  unfold resolve?
  simp only
  rw [hown]
  split
  · -- Without a type around it the node hands out its own value.
    cases htype : enclosingType? document trace with
    | none => exact ⟨own, rfl, hwfOwn⟩
    | some value => exact ⟨value, rfl, wellFormed_of_enclosingType? hwf htype⟩
  · exact ⟨own, rfl, hwfOwn⟩

/-- A selector that matches nothing by its form has no matching traces. -/
theorem matching_of_isVacuous (h : query.isVacuous = true) (candidates : List Trace) :
    query.matching expander document candidates = [] := by
  rw [matching, List.filter_eq_nil_iff]
  intro trace _
  simp [selects, h]

theorem firstOf?_eq {candidates : List Trace}
    (h : ∀ trace ∈ candidates, (query.resolve? document trace).isSome) :
    query.firstOf? expander document candidates =
      (query.matching expander document candidates).head?.bind (query.resolve? document) := by
  induction candidates with
  | nil => rfl
  | cons trace rest ih =>
      obtain ⟨htrace, hrest⟩ := List.forall_mem_cons.mp h
      have hrest := ih hrest
      unfold firstOf? matching at hrest ⊢
      rw [List.findSome?_cons, List.filter_cons]
      by_cases hselects : query.selects expander document trace = true
      · -- A matching trace hands something out, so the search ends with it.
        obtain ⟨value, hvalue⟩ := Option.isSome_iff_exists.mp htrace
        simp [hselects, hvalue]
      · simp only [hselects, Bool.false_eq_true, if_false]
        exact hrest

/-- A walk that ends with the first match finds what that trace hands out. -/
theorem firstOnWalk?_eq :
    query.firstOnWalk? expander document =
      (query.matching expander document (traces document)).head?.bind
        (query.resolve? document) := by
  have hshow : ∀ candidates : List Trace,
      showTraces
        (fun found trace =>
          if query.selects expander document trace then .done (query.resolve? document trace)
          else .yield found)
        none candidates =
        (query.matching expander document candidates).head?.bind (query.resolve? document) := by
    intro candidates
    induction candidates with
    | nil => rfl
    | cons trace rest ih =>
        unfold matching at ih ⊢
        rw [showTraces, List.filter_cons]
        by_cases hselects : query.selects expander document trace = true
        · simp [hselects]
        · simp only [hselects, Bool.false_eq_true, if_false]
          exact ih
  rw [firstOnWalk?, walk_eq, ← traces_eq]
  exact hshow (traces document)

/-- The first value is the same whether it is searched among the listed traces
or on a walk that ends with it. -/
theorem firstOf?_traces (hwf : document.WellFormed) :
    query.firstOf? expander document (traces document) =
      (query.matching expander document (traces document)).head?.bind
        (query.resolve? document) := by
  apply firstOf?_eq
  intro trace htrace
  obtain ⟨value, hvalue, _⟩ := resolve?_of_mem_traces query hwf htrace
  rw [hvalue]
  rfl

/-- All selected values are well formed. -/
theorem wellFormed_of_mem_allOf {value : Json} (hwf : document.WellFormed)
    (h : value ∈ query.allOf expander document (traces document)) : value.WellFormed := by
  obtain ⟨trace, htrace, hvalue⟩ := List.mem_filterMap.mp h
  obtain ⟨other, hother, hwfOther⟩ :=
    resolve?_of_mem_traces query hwf (List.mem_filter.mp htrace).1
  obtain rfl : other = value := Option.some.inj (hother.symm.trans hvalue)
  exact hwfOther

theorem wellFormed_of_first {value : Json} (hwf : document.WellFormed)
    (h : (query.matching expander document (traces document)).head?.bind
      (query.resolve? document) = some value) : value.WellFormed := by
  obtain ⟨trace, htrace, hvalue⟩ := Option.bind_eq_some_iff.mp h
  have hmem : value ∈ query.allOf expander document (traces document) :=
    List.mem_filterMap.mpr ⟨trace, List.mem_of_mem_head? htrace, hvalue⟩
  exact wellFormed_of_mem_allOf hwf hmem

end Compiled

end LinkedPath
