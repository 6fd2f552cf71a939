import LinkedPath.Proofs.Match.Embedding
import LinkedPath.Proofs.Trace.TopLevel

/-!
# Anchoring at top level

The step for the document is held in its place by a name: it stands on an entry
whose key is accepted for the reserved name of the document.  Such an entry is
at top level, or its key is the name of a member (`Embedding.root_cases`).  So
long as no member has that name, selectors are anchored at top level
(`anchored_at_top_level`), and a member of that name moves the anchor below it
(`not_anchored_below_reservedMember`).
-/

namespace LinkedPath

namespace Compiled

variable {expander : Expander} {document : Json} {query : Compiled} {trace : Trace}
  {position : Nat → Nat}

/-- The step of a number is the leftmost node step: only combinators stand
between it and the step for the document. -/
def IsLeftmost (query : Compiled) (i : Nat) : Prop :=
  (∃ test, query.path[i]? = some (.node test)) ∧
    Search.Neighbors query.steps i query.path.length

/-- The step for the document stands on an entry with an accepted key. -/
theorem Embedding.root_entry (h : Embedding expander document query trace position) :
    ∃ top, trace.reverse[position query.path.length]? = some top ∧
      expander.accepts top.key Keyword.document = true := by
  obtain ⟨top, htop, hholds⟩ := h.holds query.steps_getElem?_length
  exact ⟨top, htop, hholds.name Keyword.document rfl⟩

/-- The entry under the step for the document is at top level, or it stands
under a member name that is accepted for the name of the document. -/
theorem Embedding.root_cases (hwf : document.WellFormed) (htrace : trace ∈ traces document)
    (h : Embedding expander document query trace position) :
    ∃ top, trace.reverse[position query.path.length]? = some top ∧
      (document.TopLevel top.pointer ∨
        document.HasMember top.key ∧ expander.accepts top.key Keyword.document = true) := by
  obtain ⟨top, htop, haccepts⟩ := h.root_entry
  refine ⟨top, htop, ?_⟩
  obtain ⟨chain, hlinked, rfl⟩ := exists_linked_of_mem_traces htrace
  have hmem : top ∈ chain.trace := List.mem_reverse.mp (List.mem_of_getElem? htop)
  obtain ⟨visit, hvisit, rfl⟩ := List.mem_map.mp hmem
  have hreaches := hlinked.reaches visit hvisit
  rcases hreaches.key_cases hwf with ⟨_, htop⟩ | hmember
  · exact Or.inl htop
  · exact Or.inr ⟨hmember, haccepts⟩

/-- The leftmost node step stands directly below the entry under the step for
the document. -/
theorem Embedding.leftmost_directlyBelow (hwf : document.WellFormed)
    (htrace : trace ∈ traces document) (h : Embedding expander document query trace position)
    {top : Entry} (htop : trace.reverse[position query.path.length]? = some top) {i : Nat}
    (hleftmost : query.IsLeftmost i) :
    ∃ entry, trace.reverse[position i]? = some entry ∧
      document.DirectlyBelow top.pointer entry.pointer := by
  obtain ⟨⟨test, hpath⟩, hneighbors⟩ := hleftmost
  have hstep : query.steps[i]? = some (.node test) := by
    rw [steps, List.getElem?_append_left hneighbors.1, hpath]
  obtain ⟨entry, hentry, _⟩ := h.holds hstep
  have hadjacent : position query.path.length + 1 = position i :=
    h.root hstep query.steps_getElem?_length hneighbors (by simp [steps])
  refine ⟨entry, hentry, ?_⟩
  obtain ⟨chain, hlinked, rfl⟩ := exists_linked_of_mem_traces htrace
  -- Two entries in a row are visits in a row.
  rw [Chain.trace, ← List.map_reverse, List.getElem?_map] at htop hentry
  obtain ⟨outer, houter, rfl⟩ := Option.map_eq_some_iff.mp htop
  obtain ⟨inner, hinner, rfl⟩ := Option.map_eq_some_iff.mp hentry
  rw [← hadjacent] at hinner
  have hreaches := hlinked.reaches outer (List.mem_reverse.mp (List.mem_of_getElem? houter))
  exact (hlinked.directlyInside_of_getElem? houter hinner).directlyBelow hwf hreaches

/-- Without node steps the step for the document stands on the node itself. -/
theorem Embedding.root_eq_node (h : Embedding expander document query trace position)
    (hpath : query.path.all Step.isChild = true) {top : Entry}
    (htop : trace.reverse[position query.path.length]? = some top) : trace.node? = some top := by
  have hchild : ∀ k < query.path.length, query.steps[k]? = some .child := by
    intro k hk
    have hstep := List.all_eq_true.mp hpath query.path[k] (List.getElem_mem hk)
    rw [steps, List.getElem?_append_left hk, List.getElem?_eq_getElem hk]
    cases hcase : query.path[k] with
    | child => rfl
    | node test =>
        rw [hcase] at hstep
        contradiction
  have hlast := h.first query.steps_getElem?_length hchild
  rw [List.getElem?_reverse (by omega)] at htop
  rw [Trace.node?, List.head?_eq_getElem?, ← htop]
  congr 1
  omega

/-- In a document without members under the name of the document a selector is
anchored at top level.  A matching trace has an embedding, and in every
embedding the step for the document stands on the document or on an element of
a top-level array.  The leftmost node step stands on a direct member of that
entry, and a selector without node steps selects the entry itself. -/
theorem anchored_at_top_level (hwf : document.WellFormed)
    (hspares : document.SparesDocumentName expander) (htrace : trace ∈ traces document)
    (hselects : query.selects expander document trace = true) :
    (∃ position, Embedding expander document query trace position) ∧
      ∀ position, Embedding expander document query trace position →
        ∃ top, trace.reverse[position query.path.length]? = some top ∧
          document.TopLevel top.pointer ∧
          (∀ i, query.IsLeftmost i →
            ∃ entry, trace.reverse[position i]? = some entry ∧
              document.DirectlyBelow top.pointer entry.pointer) ∧
          (query.path.all Step.isChild = true → trace.node? = some top) := by
  constructor
  · simp only [selects, Bool.and_eq_true] at hselects
    exact run_iff_exists_embedding.mp hselects.2
  · intro position h
    obtain ⟨top, htop, hcases⟩ := h.root_cases hwf htrace
    refine ⟨top, htop, ?_, ?_, ?_⟩
    · rcases hcases with htopLevel | ⟨hmember, haccepts⟩
      · exact htopLevel
      · rw [hspares.accepts_eq_false hmember] at haccepts
        contradiction
    · intro i hleftmost
      exact h.leftmost_directlyBelow hwf htrace htop hleftmost
    · intro hpath
      exact h.root_eq_node hpath htop

/-- An array with one object as a document. -/
def oneElement : Json := .array [.object [("a", .bool true)]]

theorem anchored_at_top_level_oneElement :
    oneElement.WellFormed ∧ oneElement.SparesDocumentName Context.empty.expander ∧
      ∃ trace ∈ traces oneElement, trace.pointerText? = some "/0/a" ∧
        (compile Context.empty.expander "a").selects Context.empty.expander oneElement trace = true ∧
        ∃ top ∈ trace, oneElement.TopLevel top.pointer := by
  have hwf : oneElement.WellFormed := by
    simp [oneElement, Json.WellFormed, Json.AllWellFormed, Json.MembersWellFormed, Keyed.keys]
  have hspares : oneElement.SparesDocumentName Context.empty.expander := by
    have hmembers : ∀ name ∈ Keyed.keys [("a", Json.bool true)], name ≠ Keyword.document ∧
        Context.empty.expander.expand name ≠ Keyword.document := by
      intro name hname
      obtain rfl := List.mem_singleton.mp hname
      decide +kernel
    refine Json.everyObject_array (List.forall_mem_singleton.mpr ?_)
    exact Json.everyObject_object hmembers
      (List.forall_mem_singleton.mpr (Json.everyObject_scalar rfl rfl))
  obtain ⟨trace, htrace, hpointer, hselects⟩ : ∃ trace ∈ traces oneElement,
      trace.pointerText? = some "/0/a" ∧
        (compile Context.empty.expander "a").selects Context.empty.expander oneElement trace =
          true := by
    rw [traces_eq]
    refine ⟨_, List.mem_map_of_mem (List.mem_of_getElem? (i := 2) rfl), ?_, ?_⟩
    · rfl
    · decide +kernel
  obtain ⟨⟨position, h⟩, hanchored⟩ := anchored_at_top_level hwf hspares htrace hselects
  obtain ⟨top, htop, htopLevel, _⟩ := hanchored position h
  exact ⟨hwf, hspares, trace, htrace, hpointer, hselects, top,
    List.mem_reverse.mp (List.mem_of_getElem? htop), htopLevel⟩

/-- A document with a member under the name of the document. -/
def reservedMember : Json :=
  .object [(Keyword.document, .object [("a", .number (.integer 1))])]

/-- The trace of the member `a` inside it. -/
def reservedTrace : Trace :=
  [{ id := 2, kind := .leaf, key := "a", index? := none, trail := ["a", Keyword.document] },
    { id := 1, kind := .object, key := Keyword.document, index? := none,
      trail := [Keyword.document] },
    Walk.rootEntry reservedMember]

/-- The member takes the step for the document, so the selector `a` matches
inside it, and there is no embedding with that step at top level. -/
theorem not_anchored_below_reservedMember :
    reservedMember.WellFormed ∧
      reservedTrace ∈ traces reservedMember ∧
      (compile Context.empty.expander "a").selects Context.empty.expander reservedMember
        reservedTrace = true ∧
      ∀ position,
        Embedding Context.empty.expander reservedMember (compile Context.empty.expander "a")
          reservedTrace position →
        ∀ top, reservedTrace.reverse[position (compile Context.empty.expander "a").path.length]? =
          some top → ¬ reservedMember.TopLevel top.pointer := by
  have hwf : reservedMember.WellFormed := by
    simp [reservedMember, Json.WellFormed, Json.MembersWellFormed, Keyed.keys]
  have hcompile : compile Context.empty.expander "a" =
      { source := "a", path := [.node (NodeTest.named "a")], rootPredicates := [] } := by
    decide +kernel
  have hmem : reservedTrace ∈ traces reservedMember := by
    rw [traces_eq]
    exact List.mem_map.mpr ⟨_, List.mem_of_getElem? (i := 2) rfl, rfl⟩
  refine ⟨hwf, hmem, ?_, ?_⟩
  · decide +kernel
  · rw [hcompile]
    intro position h top htop htopLevel
    have hfirst : position 0 + 1 = 3 := h.first (i := 0) rfl (by simp)
    have hroot : position 1 + 1 = position 0 :=
      h.root (i := 0) (j := 1) rfl rfl ⟨by omega, fun k hzero hone => by omega⟩ rfl
    -- So the step for the document stands on the member.
    have hposition : position 1 = 1 := by omega
    change reservedTrace.reverse[position 1]? = some top at htop
    rw [hposition] at htop
    obtain rfl := Option.some.inj htop
    obtain ⟨items, hitems⟩ := htopLevel [] [Keyword.document] rfl (by simp)
    cases hitems

end Compiled

end LinkedPath
