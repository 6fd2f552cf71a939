import LinkedPath.Proofs.Match.Chaining
import LinkedPath.Proofs.Session.FirstAndAll

/-!
# Asking handles in turn

The handles that an answer opens can be asked further.  What they answer
together is what one question for both selectors in a row answers, save for
handles on arrays (`Session.Coherent.items_in_row`).  The last theorem joins
this to the nodes that are selected.
-/

namespace LinkedPath

/-- Values that are not handed out raw are those of a selector that is not
vacuous and ends in no final keyword. -/
theorem View.of_raw_all {view : View} {path : String} (h : (view.all path).raw = false) :
    (Compiled.compile view.expander path).isVacuous = false ∧
      (Compiled.compile view.expander path).endsInFinal = false := by
  change (Compiled.compile view.expander path).isFinal (view.all path).items.isEmpty = false at h
  rw [Compiled.isFinal, Bool.or_eq_false_iff] at h
  refine ⟨?_, h.2⟩
  rw [← Bool.not_eq_true]
  intro hvacuous
  have hitems : (view.all path).items = [] := by
    show (Compiled.compile view.expander path).allOf _ _ _ = []
    rw [Compiled.allOf, Compiled.matching_of_isVacuous hvacuous]
    rfl
  rw [hitems] at h
  exact absurd h.1 (by decide)

namespace Session

variable {session : Session} {handle : Handle}

/-- The handles that come with all values are answered from their documents,
under the names of the handle that was asked. -/
theorem Coherent.queryAll_opened (h : session.Coherent) {name : String}
    (hname : session.node name = .ok handle) {path : String} {handles : List Handle}
    (hnodes : (session.workspace.queryAll handle path).1 = .nodes handles) :
    let workspace := (session.workspace.queryAll handle path).2
    (session.workspace.view handle).all path =
        { raw := false, items := handles.map Handle.document } ∧
      ∀ child ∈ handles, ∀ below,
        (workspace.queryAll child below).1.items =
          (View.all ⟨child.document, (session.workspace.view handle).expander⟩ below).items := by
  intro workspace
  have hmem := mem_handles_of_node hname
  obtain ⟨hall, hupkeep⟩ := h.serves.queryAll h.faithful hmem path
  obtain ⟨_, _, hviews⟩ := h.asked hmem hupkeep
  rw [hnodes] at hall hupkeep hviews
  refine ⟨hall.symm, ?_⟩
  intro child hchild below
  have hshown := (hupkeep.serves.queryAll hupkeep.faithful
    (List.mem_append_left _ hchild) below).1
  rw [hviews child hchild] at hshown
  rw [← Selections.items_shown, hshown]

/-- Asking the opened handles for a second selector is asking for both selectors
in a row, as far as the handles are not open on arrays. -/
theorem Coherent.items_in_row (h : session.Coherent) {name : String}
    (hname : session.node name = .ok handle)
    (hspares : handle.document.SparesDocumentName (session.workspace.view handle).expander)
    {outer inner chained : String} {first : Part} {rest : List Part}
    (hinner : Part.split inner = first :: rest) (hfirst : first.bringsNode = true)
    (hchained : Part.split chained = Part.split outer ++ [.child] ++ Part.split inner)
    {handles : List Handle}
    (hnodes : (session.workspace.queryAll handle outer).1 = .nodes handles) (value : Json) :
    value ∈ (session.workspace.queryAll handle chained).1.items ↔
      ∃ child ∈ handles, child.document.isArray = false ∧
        value ∈ ((session.workspace.queryAll handle outer).2.queryAll child inner).1.items := by
  obtain ⟨houter, hopened⟩ := h.queryAll_opened hname hnodes
  obtain ⟨_, hall, hwf⟩ := h.shown hname chained
  have hraw : ((session.workspace.view handle).all outer).raw = false := by rw [houter]
  obtain ⟨hvacuous, hfinal⟩ := View.of_raw_all hraw
  rw [← Selections.items_shown, hall]
  have h : Compiled.Chained
      (Compiled.compile (session.workspace.view handle).expander outer)
      (Compiled.compile (session.workspace.view handle).expander inner)
      (Compiled.compile (session.workspace.view handle).expander chained) := by
    rw [Compiled.compile, Compiled.compile, Compiled.compile, hchained, hinner]
    exact Compiled.chained_ofParts hfirst _ _ _ _ _
  have hfound : (Compiled.compile (session.workspace.view handle).expander outer).allOf
      (session.workspace.view handle).expander handle.document (traces handle.document) =
      handles.map Handle.document := congrArg ShownAll.items houter
  refine (h.mem_allOf_iff hvacuous hwf hspares hfinal).trans ?_
  constructor
  · rintro ⟨found, hmem, harray, hvalue⟩
    rw [hfound] at hmem
    obtain ⟨child, hchild, rfl⟩ := List.mem_map.mp hmem
    refine ⟨child, hchild, harray, ?_⟩
    rw [hopened child hchild]
    exact hvalue
  · rintro ⟨child, hchild, harray, hvalue⟩
    rw [hopened child hchild] at hvalue
    refine ⟨child.document, ?_, harray, hvalue⟩
    rw [hfound]
    exact List.mem_map_of_mem hchild

end Session

/-! ## In turn -/

/-- Selecting in a row is selecting in turn.  Behind a combinator, parts that
begin with a node select below every node that the parts before them select and
that is no array, namely what they select in the value of that node as a
document of its own.  And in every session that commands lead to, asking the
handles that a first selector opens for a second one gives the values that both
selectors give in a row, as far as the handles are not open on arrays. -/
theorem selects_in_row :
    (∀ (expander : Expander) (document : Json), document.WellFormed →
      document.SparesDocumentName expander →
      ∀ (parts : List Part) (first : Part) (rest : List Part), first.bringsNode = true →
      ∀ source source' source'' : String,
        let outer := Compiled.ofParts expander source parts
        let inner := Compiled.ofParts expander source' (first :: rest)
        let chained := Compiled.ofParts expander source'' (parts ++ [.child] ++ first :: rest)
        outer.isVacuous = false → ∀ pointer,
          (chained.SelectsAt expander document pointer ↔
            ∃ place below value, pointer = place ++ below ∧
              outer.SelectsAt expander document place ∧ document.at? place = some value ∧
              value.isArray = false ∧ inner.SelectsAt expander value below)) ∧
    ∀ commands : List Command, (∀ command ∈ commands, command.WellFormed) →
      ∀ name handle, (Session.empty.after commands).node name = .ok handle →
        let workspace := (Session.empty.after commands).workspace
        handle.document.SparesDocumentName (workspace.view handle).expander →
        ∀ (outer inner chained : String) (first : Part) (rest : List Part),
          Part.split inner = first :: rest → first.bringsNode = true →
          Part.split chained = Part.split outer ++ [.child] ++ Part.split inner →
          ∀ handles, (workspace.queryAll handle outer).1 = .nodes handles → ∀ value,
            (value ∈ (workspace.queryAll handle chained).1.items ↔
              ∃ child ∈ handles, child.document.isArray = false ∧
                value ∈ ((workspace.queryAll handle outer).2.queryAll child inner).1.items) := by
  constructor
  · intro expander document hwf hspares parts first rest hfirst source source' source'' outer inner
      chained hvacuous pointer
    have h : Compiled.Chained outer inner chained :=
      Compiled.chained_ofParts hfirst parts rest source source' source''
    exact h.selectsAt_iff hvacuous hwf hspares
  · intro commands hwf name handle hname workspace hspares outer inner chained first rest hinner
      hfirst hchained handles hnodes value
    have hcoherent := (Session.coherent_empty.after hwf).1
    exact hcoherent.items_in_row hname hspares hinner hfirst hchained hnodes value

/-- A document with an object in an array in an object. -/
def nestedItem : Json := .object [("a", .array [.object [("b", .bool true)]])]

theorem sparesDocumentName_nestedItem :
    nestedItem.SparesDocumentName Context.empty.expander := by
  have hname : ∀ name ∈ ["a", "b"], name ≠ Keyword.document ∧
      Context.empty.expander.expand name ≠ Keyword.document := by
    intro name hmem
    rcases List.mem_pair.mp hmem with rfl | rfl
    · decide +kernel
    · decide +kernel
  have hitem : Json.SparesDocumentName Context.empty.expander (.object [("b", .bool true)]) :=
    Json.everyObject_object (fun name hmem => hname name (List.mem_cons_of_mem _ hmem))
      (List.forall_mem_singleton.mpr (Json.everyObject_scalar rfl rfl))
  refine Json.everyObject_object (fun name hmem => hname name ?_)
    (List.forall_mem_singleton.mpr (Json.everyObject_array (List.forall_mem_singleton.mpr hitem)))
  rw [List.mem_singleton.mp hmem]
  exact List.mem_cons_self

/-- The truth value in the nested object is selected in a row, by pointer and by
asking the handle that opens for the object in the array. -/
theorem selects_in_row_nestedItem :
    let expander := Context.empty.expander
    let commands : List Command :=
      [.factory (.ok .empty) false "f", .document "f" (.ok nestedItem) "d"]
    let workspace := (Session.empty.after commands).workspace
    nestedItem.WellFormed ∧ nestedItem.SparesDocumentName expander ∧
      (Compiled.ofParts expander "a" [.segment "a"]).isVacuous = false ∧
      (Compiled.ofParts expander "a > b"
          ([.segment "a"] ++ [.child] ++ [.segment "b"])).SelectsAt expander
        nestedItem ["a", "0", "b"] ∧
      ∃ handle, (Session.empty.after commands).node "d" = .ok handle ∧
        .bool true ∈ (workspace.queryAll handle "a > b").1.items := by
  intro expander commands workspace
  have hwf : nestedItem.WellFormed := by
    simp [nestedItem, Json.WellFormed, Json.AllWellFormed, Json.MembersWellFormed, Keyed.keys]
  have hspares := sparesDocumentName_nestedItem
  have hsegment : (Part.segment "b").bringsNode = true := rfl
  have hvacuous : (Compiled.ofParts expander "a" [.segment "a"]).isVacuous = false := rfl
  have houter : (Compiled.ofParts expander "a" [.segment "a"]).SelectsAt expander nestedItem
      ["a", "0"] := by
    rw [Compiled.SelectsAt, traces_eq]
    refine ⟨_, List.mem_map_of_mem (List.mem_of_getElem? (i := 1) rfl), ?_, ?_⟩
    · decide +kernel
    · rfl
  have hinner : (Compiled.ofParts expander "b" [.segment "b"]).SelectsAt expander
      (.object [("b", .bool true)]) ["b"] := by
    rw [Compiled.SelectsAt, traces_eq]
    refine ⟨_, List.mem_map_of_mem (List.mem_of_getElem? (i := 1) rfl), ?_, ?_⟩
    · decide +kernel
    · rfl
  have hat : nestedItem.at? ["a", "0"] = some (.object [("b", .bool true)]) := rfl
  have hrow := selects_in_row.1 expander nestedItem hwf hspares [.segment "a"] (.segment "b") []
    hsegment "a" "b" "a > b" hvacuous
  refine ⟨hwf, hspares, hvacuous, (hrow _).mpr ⟨_, _, _, rfl, houter, hat, rfl, hinner⟩, ?_⟩
  let handle : Handle := { document := nestedItem, compiler := 0, lineage := 0 }
  let item : Handle := { document := .object [("b", .bool true)], compiler := 0, lineage := 1 }
  have hcommands : ∀ command ∈ commands, command.WellFormed := by
    simp [commands, Command.WellFormed, hwf]
  have hname : (Session.empty.after commands).node "d" = .ok handle := rfl
  have hexpander : (workspace.view handle).expander = expander := rfl
  have hsplit : Part.split "b" = [.segment "b"] := by
    decide +kernel
  have hchained : Part.split "a > b" = Part.split "a" ++ [.child] ++ Part.split "b" := by
    decide +kernel
  have hnodes : (workspace.queryAll handle "a").1 = .nodes [item] := by
    decide +kernel
  have hasked : ((workspace.queryAll handle "a").2.queryAll item "b").1.items = [.bool true] := by
    decide +kernel
  have hturn := selects_in_row.2 commands hcommands "d" handle hname (hexpander ▸ hspares) "a" "b"
    "a > b" _ _ hsplit hsegment hchained _ hnodes
  refine ⟨handle, hname, (hturn _).mpr ⟨item, List.mem_singleton_self item, rfl, ?_⟩⟩
  rw [hasked]
  exact List.mem_singleton_self _

end LinkedPath
