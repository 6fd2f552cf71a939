import LinkedPath.Proofs.Match.FailureTable

/-!
# Embeddings of a selector

An embedding puts every node step of a selector on an entry of a trace.  The
main statement `selects_iff_exists_embedding` says that a selector matches a
trace exactly when it is not vacuous and has an embedding.  Nothing in the
definition of an embedding knows of the order in which the search tries
positions, of its table, or of the flags it passes along.
-/

namespace LinkedPath

/-- A test holds at an entry: the key of the entry stands for the name, and the
value of the entry satisfies every predicate. -/
structure NodeTest.Holds (expander : Expander) (document : Json) (test : NodeTest)
    (entry : Entry) : Prop where
  name : ∀ name, test.name? = some name → expander.accepts entry.key name = true
  predicates : ∀ predicate ∈ test.predicates,
    ∃ value, entry.value? document = some value ∧ predicate.holds expander value = true

theorem NodeTest.passes_iff {expander : Expander} {document : Json} {test : NodeTest}
    {entry : Entry} :
    test.passes expander document entry = true ↔ test.Holds expander document entry := by
  rw [NodeTest.passes, Bool.and_eq_true, Bool.or_eq_true]
  constructor
  · rintro ⟨hname, hpredicates⟩
    refine ⟨?_, ?_⟩
    · intro name hsome
      rw [hsome] at hname
      exact hname
    · intro predicate hmem
      rcases hpredicates with hempty | hall
      · rw [List.isEmpty_iff] at hempty
        simp [hempty] at hmem
      · split at hall
        · rename_i value hvalue
          exact ⟨value, hvalue, List.all_eq_true.mp hall predicate hmem⟩
        · contradiction
  · rintro ⟨hname, hpredicates⟩
    constructor
    · split
      · rename_i name hsome
        exact hname name hsome
      · rfl
    · -- The value is looked up only when there is a predicate.
      cases hlist : test.predicates with
      | nil => exact Or.inl rfl
      | cons first rest =>
          right
          obtain ⟨value, hvalue, _⟩ := hpredicates first (by simp [hlist])
          rw [hvalue, ← hlist]
          apply List.all_eq_true.mpr
          intro predicate hmem
          obtain ⟨other, hother, hholds⟩ := hpredicates predicate hmem
          rw [hvalue] at hother
          cases hother
          exact hholds

/-- A test passes at a position when it holds at the entry there. -/
theorem NodeTest.passesAt_iff {expander : Expander} {document : Json} {trace : Trace}
    {test : NodeTest} {position : Nat} :
    test.passesAt expander document trace.reverse.toArray position = true ↔
      ∃ entry, trace.reverse[position]? = some entry ∧ test.Holds expander document entry := by
  rw [NodeTest.passesAt, List.getElem?_toArray]
  cases trace.reverse[position]? with
  | none => simp
  | some entry => simp [passes_iff]

/-- Two node steps with nothing but combinators between them. -/
def Search.Neighbors (steps : List Step) (i j : Nat) : Prop :=
  i < j ∧ ∀ k, i < k → k < j → steps[k]? = some .child

/-- An embedding of a selector in a trace.  Positions are counted from the
entry of the document, which has position 0; the positions of combinators do
not matter. -/
structure Compiled.Embedding (expander : Expander) (document : Json) (query : Compiled)
    (trace : Trace) (position : Nat → Nat) : Prop where
  /-- Every test holds at the entry where its step stands. -/
  holds : ∀ {i test}, query.steps[i]? = some (.node test) →
    ∃ entry, trace.reverse[position i]? = some entry ∧ test.Holds expander document entry
  /-- Positions decrease from the rightmost step to the one for the document. -/
  decreasing : ∀ {i j test other}, query.steps[i]? = some (.node test) →
    query.steps[j]? = some (.node other) → i < j → position j < position i
  /-- The first node step stands on the node of the trace. -/
  first : ∀ {i test}, query.steps[i]? = some (.node test) →
    (∀ k < i, query.steps[k]? = some .child) → position i + 1 = trace.length
  /-- A step right behind a combinator stands directly above the step before. -/
  child : ∀ {i j test other}, query.steps[i]? = some (.node test) →
    query.steps[j]? = some (.node other) → Search.Neighbors query.steps i j →
    query.steps[j - 1]? = some .child → position j + 1 = position i
  /-- The step for the document stands directly above the step before. -/
  root : ∀ {i j test other}, query.steps[i]? = some (.node test) →
    query.steps[j]? = some (.node other) → Search.Neighbors query.steps i j →
    j + 1 = query.steps.length → position j + 1 = position i

namespace Compiled

variable {expander : Expander} {document : Json} {query : Compiled} {trace : Trace}
  {position : Nat → Nat}

theorem Embedding.placement (h : Embedding expander document query trace position) :
    Search.Placement (NodeTest.passesAt expander document trace.reverse.toArray) query.steps
      trace.length true position where
  passes := fun hi => NodeTest.passesAt_iff.mpr (h.holds hi)
  below := by
    intro i test hi
    obtain ⟨entry, hentry, _⟩ := h.holds hi
    have hlt := (List.getElem?_eq_some_iff.mp hentry).1
    rwa [List.length_reverse] at hlt
  decreasing := h.decreasing
  first := fun hi hchild _ => h.first hi hchild
  adjacent := by
    intro i j test other hi hj hlt hbetween hpin
    rcases hpin with hchild | hlast
    · -- Something lies between the two steps, and it is a combinator.
      exact h.child hi hj ⟨hlt, hbetween⟩ (hbetween _ (by omega) (by omega))
    · exact h.root hi hj ⟨hlt, hbetween⟩ hlast

theorem Embedding.of_placement
    (h : Search.Placement (NodeTest.passesAt expander document trace.reverse.toArray) query.steps
      trace.length true position) :
    Embedding expander document query trace position where
  holds := fun hi => NodeTest.passesAt_iff.mp (h.passes hi)
  decreasing := h.decreasing
  first := fun hi hchild => h.first hi hchild (Or.inl rfl)
  child := by
    intro i j test other hi hj hneighbors hchild
    refine h.adjacent hi hj hneighbors.1 hneighbors.2 (Or.inl ?_)
    -- The step before `j` is a combinator, and the one at `i` is not.
    have hne : j - 1 ≠ i := by
      rintro rfl
      rw [hi] at hchild
      simp at hchild
    have hlt := hneighbors.1
    omega
  root := fun hi hj hneighbors hlast =>
    h.adjacent hi hj hneighbors.1 hneighbors.2 (Or.inr hlast)

/-- The last step is the one for the document. -/
theorem steps_getElem?_length (query : Compiled) :
    query.steps[query.path.length]? = some (.node (rootTest query.rootPredicates)) := by
  simp [steps]

/-- Only a trace with an entry has an embedding. -/
theorem Embedding.ne_nil (h : Embedding expander document query trace position) : trace ≠ [] := by
  rintro rfl
  obtain ⟨entry, hentry, _⟩ := h.holds query.steps_getElem?_length
  simp at hentry

/-- The search finds an embedding exactly when there is one. -/
theorem run_iff_exists_embedding :
    Search.run (NodeTest.passesAt expander document trace.reverse.toArray) query.steps
        trace.length = true ↔
      ∃ position, Embedding expander document query trace position := by
  rw [Search.run_iff, Search.fits_iff]
  constructor
  · rintro ⟨position, h⟩
    exact ⟨position, Embedding.of_placement h⟩
  · rintro ⟨position, h⟩
    exact ⟨position, h.placement⟩

/-- A selector matches a trace exactly when it is not vacuous and its steps can
be put on the entries of the trace. -/
theorem selects_iff_exists_embedding (expander : Expander) (document : Json) (query : Compiled)
    (trace : Trace) :
    query.selects expander document trace = true ↔
      query.isVacuous = false ∧
        ∃ position, Embedding expander document query trace position := by
  unfold selects
  simp only [Bool.and_eq_true, Bool.not_eq_true', List.isEmpty_eq_false_iff]
  rw [run_iff_exists_embedding]
  constructor
  · rintro ⟨⟨hvacuous, _⟩, hembedding⟩
    exact ⟨hvacuous, hembedding⟩
  · rintro ⟨hvacuous, position, h⟩
    exact ⟨⟨hvacuous, h.ne_nil⟩, position, h⟩

end Compiled
end LinkedPath
