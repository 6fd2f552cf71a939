import LinkedPath.Proofs.Match.Embedding
import LinkedPath.Proofs.Session.Transparency

/-!
# The first value and all values

A question for the first value and a question for all values are answered on
different ways: the first value may be found among kept traces or on a walk
that ends with it, and only the others collect.  Here both answers are read off
one list, the matching traces in document order.  Every matching trace hands
out one value (`map_some_allOf`), so the first value is the head of all values
(`first?_eq`), and both are handed out in the same form unless the first value
is `null` (`raw_first?`).
-/

namespace LinkedPath

namespace Compiled

variable {expander : Expander} {document : Json} {query : Compiled}

/-- Every matching trace contributes one value to all values. -/
theorem map_some_allOf (hwf : document.WellFormed) :
    (query.allOf expander document (traces document)).map some =
      (query.matching expander document (traces document)).map (query.resolve? document) := by
  have hvalues : ∀ selected : List Trace, (∀ trace ∈ selected, trace ∈ traces document) →
      (selected.filterMap (query.resolve? document)).map some =
        selected.map (query.resolve? document) := by
    intro selected hselected
    induction selected with
    | nil => rfl
    | cons trace rest ih =>
        obtain ⟨htrace, hrest⟩ := List.forall_mem_cons.mp hselected
        obtain ⟨value, hvalue, _⟩ := resolve?_of_mem_traces query hwf htrace
        rw [List.filterMap_cons_some hvalue, List.map_cons, List.map_cons, ih hrest, hvalue]
  exact hvalues _ fun trace htrace => (List.mem_filter.mp htrace).1

theorem head?_allOf (hwf : document.WellFormed) :
    (query.allOf expander document (traces document)).head? =
      (query.matching expander document (traces document)).head?.bind
        (query.resolve? document) := by
  have hvalues : (query.allOf expander document (traces document)).map some =
      (query.matching expander document (traces document)).map (query.resolve? document) :=
    map_some_allOf hwf
  cases hselected : query.matching expander document (traces document) with
  | nil =>
      rw [allOf, hselected]
      rfl
  | cons trace rest =>
      rw [hselected] at hvalues
      obtain ⟨value, others, hall, hvalue, _⟩ := List.map_eq_cons_iff.mp hvalues
      rw [hall]
      exact hvalue

/-- The matching traces are those of the document that carry an embedding. -/
theorem mem_matching_iff {trace : Trace} :
    trace ∈ query.matching expander document (traces document) ↔
      trace ∈ traces document ∧ query.isVacuous = false ∧
        ∃ position, query.Embedding expander document trace position := by
  rw [matching, List.mem_filter]
  constructor
  · rintro ⟨htrace, hselects⟩
    simp only [selects, Bool.and_eq_true, Bool.not_eq_true'] at hselects
    exact ⟨htrace, hselects.1.1, run_iff_exists_embedding.mp hselects.2⟩
  · rintro ⟨htrace, hvacuous, position, hembedding⟩
    refine ⟨htrace, ?_⟩
    simp only [selects, Bool.and_eq_true, Bool.not_eq_true', List.isEmpty_eq_false_iff]
    exact ⟨⟨hvacuous, hembedding.ne_nil⟩, run_iff_exists_embedding.mpr ⟨position, hembedding⟩⟩

/-- No node is matched twice. -/
theorem nodup_pointerText?_matching (hwf : document.WellFormed) :
    ((query.matching expander document (traces document)).map Trace.pointerText?).Nodup := by
  have hall : ((traces document).map Trace.pointerText?).Nodup := by
    rw [map_pointerText?_traces]
    exact (Chain.nodup_documentOrder hwf).map map_text_injective
  exact hall.sublist (List.filter_sublist.map _)

end Compiled

namespace View

variable {view : View}

/-- The first value is the head of all values; it is raw by itself when it is
`null`. -/
theorem first?_eq (hwf : view.document.WellFormed) (path : String) :
    view.first? path = (view.all path).items.head?.map fun value =>
      { raw := (Compiled.compile view.expander path).isFinal value.isNull, json := value } := by
  rw [first?, all]
  simp only
  rw [Compiled.head?_allOf hwf]

theorem first?_eq_none_iff (hwf : view.document.WellFormed) (path : String) :
    view.first? path = none ↔ (view.all path).items = [] := by
  rw [first?_eq hwf, Option.map_eq_none_iff, List.head?_eq_none_iff]

theorem head?_items_all (hwf : view.document.WellFormed) {path : String} {first : Shown}
    (h : view.first? path = some first) : (view.all path).items.head? = some first.json := by
  rw [first?_eq hwf, Option.map_eq_some_iff] at h
  obtain ⟨value, hvalue, rfl⟩ := h
  exact hvalue

/-- A first value that is not `null` is raw exactly when all values are. -/
theorem raw_first? (hwf : view.document.WellFormed) {path : String} {first : Shown}
    (h : view.first? path = some first) (hnull : first.json.isNull = false) :
    first.raw = (view.all path).raw := by
  have hhead := head?_items_all hwf h
  rw [first?_eq hwf, Option.map_eq_some_iff] at h
  obtain ⟨value, _, rfl⟩ := h
  -- Something was found, so neither form depends on what was found.
  have hitems : (view.all path).items.isEmpty = false := by
    rw [List.isEmpty_eq_false_iff]
    intro hnil
    rw [hnil] at hhead
    contradiction
  show (Compiled.compile view.expander path).isFinal value.isNull =
    (Compiled.compile view.expander path).isFinal (view.all path).items.isEmpty
  rw [hitems, show value.isNull = false from hnull]

end View

/-! ## What handles answer -/

theorem Selection.json_shown (selection : Selection) : selection.shown.json = selection.json := by
  cases selection <;> rfl

theorem Selections.items_shown (selections : Selections) :
    selections.shown.items = selections.items := by
  cases selections <;> rfl

namespace Session

variable {session : Session} {handle : Handle}

theorem lookup_of_node {name : String} (h : session.node name = .ok handle) :
    session.nodes.lookup name = some handle := by
  rw [node] at h
  split at h
  · rename_i found hlookup
    cases h
    exact hlookup
  · contradiction

theorem mem_handles_of_node {name : String} (h : session.node name = .ok handle) :
    handle ∈ session.handles :=
  mem_handles (lookup_of_node h)

/-- A named handle of a session in good order is answered from its view. -/
theorem Coherent.shown (h : session.Coherent) {name : String}
    (hname : session.node name = .ok handle) (path : String) :
    (session.workspace.query handle path).1.map Selection.shown =
        (session.workspace.view handle).first? path ∧
      (session.workspace.queryAll handle path).1.shown =
        (session.workspace.view handle).all path ∧
      handle.document.WellFormed := by
  have hmem := mem_handles_of_node hname
  exact ⟨(h.serves.query h.faithful hmem path).1, (h.serves.queryAll h.faithful hmem path).1,
    h.serves.wellFormed handle hmem⟩

end Session

end LinkedPath
