import LinkedPath.Proofs.Match.Lines
import LinkedPath.Proofs.Match.Narrowing
import LinkedPath.Proofs.Query.Trailing
import LinkedPath.Proofs.Session.FirstAndAll

/-!
# Questions with a combinator at the end

A combinator behind a selector is one more part and changes no match.  But how
the selected values are handed out depends on the name that the rightmost step
asks for, and a combinator asks for none: with it no value is handed out raw for
its keyword, and no type is looked up around the selected node.  So an answer
stays the same exactly when the selector does not end in a final keyword or
finds nothing (`View.all_trailing_eq_iff`), and for the first value also when
that is `null` (`View.first?_trailing_eq_iff`).  The selected values are the
same as long as the type is selected under its own keyword
(`View.items_trailing`); an alias of the keyword can stand elsewhere.
-/

namespace LinkedPath

namespace Compiled

variable {expander : Expander} {document : Json} {query : Compiled}

theorem selects_trailing (expander : Expander) (source : String) (document : Json)
    (trace : Trace) :
    (compile expander (source ++ " >")).selects expander document trace =
      (compile expander source).selects expander document trace :=
  selects_insert_child (List.nil_append _).symm (steps_compile_trailing expander source)
    (Or.inl rfl) document trace

theorem matching_trailing (expander : Expander) (source : String) (document : Json)
    (candidates : List Trace) :
    (compile expander (source ++ " >")).matching expander document candidates =
      (compile expander source).matching expander document candidates :=
  List.filter_congr fun trace _ => selects_trailing expander source document trace

/-- The rightmost step is the combinator, and it asks for no name. -/
theorem terminalName?_trailing (expander : Expander) (source : String) :
    (compile expander (source ++ " >")).terminalName? = none := by
  rw [terminalName?, terminal?, steps_compile_trailing]
  rfl

theorem endsInFinal_trailing (expander : Expander) (source : String) :
    (compile expander (source ++ " >")).endsInFinal = false := by
  rw [endsInFinal, terminalName?_trailing]

theorem isFinal_trailing (expander : Expander) (source : String) (nothing : Bool) :
    (compile expander (source ++ " >")).isFinal nothing = nothing := by
  rw [isFinal, endsInFinal_trailing, Bool.or_false]

theorem selectsType_trailing (expander : Expander) (source : String) :
    (compile expander (source ++ " >")).selectsType = false := by
  rw [selectsType, terminalName?_trailing]
  rfl

/-- Every matching trace hands out a value, so there are none only where nothing
matches. -/
theorem allOf_eq_nil_iff (hwf : document.WellFormed) :
    query.allOf expander document (traces document) = [] ↔
      query.matching expander document (traces document) = [] := by
  have hvalues : (query.allOf expander document (traces document)).map some =
      (query.matching expander document (traces document)).map (query.resolve? document) :=
    map_some_allOf hwf
  rw [← List.map_eq_nil_iff (f := some), hvalues, List.map_eq_nil_iff]

/-- The selector asks for no type around a node, or the nodes that it selects
stand under the type keyword itself. -/
def TypeInPlace (expander : Expander) (document : Json) (query : Compiled) : Prop :=
  query.selectsType = true → ∀ trace ∈ traces document,
    query.selects expander document trace = true →
      trace.node?.map Entry.key = some Keyword.type

theorem TypeInPlace.resolve? (hwf : document.WellFormed)
    (h : query.TypeInPlace expander document) {trace : Trace}
    (htrace : trace ∈ query.matching expander document (traces document)) :
    query.resolve? document trace = trace.node?.bind fun entry => entry.value? document := by
  obtain ⟨htrace, hselects⟩ := List.mem_filter.mp htrace
  cases htype : query.selectsType with
  | false => exact resolve?_of_selectsType_eq_false htype trace
  | true => exact resolve?_of_key_eq_type hwf htrace (h htype trace htrace hselects)

end Compiled

namespace View

variable {view : View} {path : String}

/-- All values with a combinator at the end are raw only when there are none. -/
theorem raw_all_trailing (view : View) (path : String) :
    (view.all (path ++ " >")).raw = (view.all (path ++ " >")).items.isEmpty :=
  Compiled.isFinal_trailing view.expander path _

theorem items_trailing_eq_nil_iff (hwf : view.document.WellFormed) :
    (view.all (path ++ " >")).items = [] ↔ (view.all path).items = [] := by
  show Compiled.allOf _ _ _ _ = [] ↔ Compiled.allOf _ _ _ _ = []
  rw [Compiled.allOf_eq_nil_iff hwf, Compiled.allOf_eq_nil_iff hwf, Compiled.matching_trailing]

/-- With a combinator at the end the selected nodes hand out their own values. -/
theorem map_some_items_trailing (hwf : view.document.WellFormed) :
    (view.all (path ++ " >")).items.map some =
      ((Compiled.compile view.expander path).matching view.expander view.document
        (traces view.document)).map fun trace =>
          trace.node?.bind fun entry => entry.value? view.document := by
  have hvalues : (view.all (path ++ " >")).items.map some =
      ((Compiled.compile view.expander (path ++ " >")).matching view.expander view.document
        (traces view.document)).map
          ((Compiled.compile view.expander (path ++ " >")).resolve? view.document) :=
    Compiled.map_some_allOf hwf
  rw [hvalues, Compiled.matching_trailing]
  refine List.map_congr_left ?_
  intro trace _
  exact Compiled.resolve?_of_selectsType_eq_false (Compiled.selectsType_trailing view.expander path) trace

/-- The values are the same where no type is looked up elsewhere. -/
theorem items_trailing (hwf : view.document.WellFormed)
    (h : (Compiled.compile view.expander path).TypeInPlace view.expander view.document) :
    (view.all (path ++ " >")).items = (view.all path).items := by
  show Compiled.allOf _ _ _ _ = Compiled.allOf _ _ _ _
  rw [Compiled.allOf, Compiled.allOf, Compiled.matching_trailing]
  refine List.filterMap_congr ?_
  intro trace htrace
  rw [Compiled.resolve?_of_selectsType_eq_false (Compiled.selectsType_trailing _ _), h.resolve? hwf htrace]

theorem items_trailing_of_endsInFinal (hwf : view.document.WellFormed)
    (h : (Compiled.compile view.expander path).endsInFinal = false) :
    (view.all (path ++ " >")).items = (view.all path).items := by
  refine items_trailing hwf ?_
  intro htype
  rw [Compiled.selectsType_eq_false_of_endsInFinal h] at htype
  contradiction

/-- All values are handed out as without the combinator exactly when the
selector ends in no final keyword or finds nothing. -/
theorem all_trailing_eq_iff (hwf : view.document.WellFormed) :
    view.all (path ++ " >") = view.all path ↔
      (Compiled.compile view.expander path).endsInFinal = false ∨ (view.all path).items = [] := by
  have hraw : (view.all path).raw = ((view.all path).items.isEmpty ||
    (Compiled.compile view.expander path).endsInFinal) := rfl
  constructor
  · intro heq
    rw [or_iff_not_imp_right, ← Bool.not_eq_true]
    intro hne hfinal
    -- Without the combinator all values are raw, and with it they are not.
    have htrailing := raw_all_trailing view path
    rw [heq, hraw, hfinal, Bool.or_true, List.isEmpty_eq_false_iff.mpr hne] at htrailing
    contradiction
  · intro h
    have hitems : (view.all (path ++ " >")).items = (view.all path).items := by
      rcases h with hfinal | hnil
      · exact items_trailing_of_endsInFinal hwf hfinal
      · rw [hnil, items_trailing_eq_nil_iff hwf, hnil]
    have hraw' : (view.all (path ++ " >")).raw = (view.all path).raw := by
      rw [raw_all_trailing, hitems, hraw]
      rcases h with hfinal | hnil
      · rw [hfinal, Bool.or_false]
      · rw [hnil]
        rfl
    exact congrArg₂ ShownAll.mk hraw' hitems

theorem raw_first?_trailing (hwf : view.document.WellFormed) {first : Shown}
    (h : view.first? (path ++ " >") = some first) : first.raw = first.json.isNull := by
  rw [first?_eq hwf, Option.map_eq_some_iff] at h
  obtain ⟨value, _, rfl⟩ := h
  exact Compiled.isFinal_trailing view.expander path value.isNull

theorem json_first?_trailing (hwf : view.document.WellFormed)
    (h : (view.all (path ++ " >")).items = (view.all path).items) :
    (view.first? (path ++ " >")).map Shown.json = (view.first? path).map Shown.json := by
  rw [first?_eq hwf, first?_eq hwf, h, Option.map_map, Option.map_map]
  rfl

/-- A first value that is `null` is handed out in one way only. -/
theorem first_eq_of_isNull (hwf : view.document.WellFormed) {first : Shown}
    (h : view.first? path = some first) (hnull : first.json.isNull = true) :
    first = { raw := true, json := .null } := by
  rw [first?_eq hwf, Option.map_eq_some_iff] at h
  obtain ⟨value, _, rfl⟩ := h
  cases value with
  | null => rfl
  | _ => contradiction

/-- The first value is handed out as without the combinator exactly when the
selector ends in no final keyword or no first value but `null` is found. -/
theorem first?_trailing_eq_iff (hwf : view.document.WellFormed) :
    view.first? (path ++ " >") = view.first? path ↔
      (Compiled.compile view.expander path).endsInFinal = false ∨
        ∀ first, view.first? path = some first ∨ view.first? (path ++ " >") = some first →
          first.json.isNull = true := by
  constructor
  · intro heq
    rw [or_iff_not_imp_left, Bool.not_eq_false, heq]
    intro hfinal first hfirst
    have hfirst : view.first? path = some first := or_self_iff.mp hfirst
    -- Without the combinator the value is raw in any case.
    have hraw : first.raw = true := by
      rw [first?_eq hwf, Option.map_eq_some_iff] at hfirst
      obtain ⟨value, _, rfl⟩ := hfirst
      show Compiled.isFinal _ _ = true
      rw [Compiled.isFinal, hfinal, Bool.or_true]
    rw [← raw_first?_trailing hwf (heq.trans hfirst), hraw]
  · rintro (hfinal | hnull)
    · rw [first?_eq hwf, first?_eq hwf, items_trailing_of_endsInFinal hwf hfinal]
      simp only [Compiled.isFinal, hfinal, Compiled.endsInFinal_trailing]
    · cases hfirst : view.first? path with
      | none =>
          rw [first?_eq_none_iff hwf] at hfirst ⊢
          exact (items_trailing_eq_nil_iff hwf).mpr hfirst
      | some first =>
          have hsome : view.first? (path ++ " >") ≠ none := by
            rw [ne_eq, first?_eq_none_iff hwf, items_trailing_eq_nil_iff hwf,
              ← first?_eq_none_iff hwf, hfirst]
            exact Option.some_ne_none first
          obtain ⟨other, hother⟩ := Option.ne_none_iff_exists'.mp hsome
          rw [hother, first_eq_of_isNull hwf hfirst (hnull first (Or.inl hfirst)),
            first_eq_of_isNull hwf hother (hnull other (Or.inr hother))]

end View

/-! ## Asking handles -/

/-- A combinator behind a selector is one more part and changes no match.  All
values are handed out as before unless the selector ends in a final keyword and
finds something; the first value is handed out as before unless the selector
ends in a final keyword and finds something other than `null`.  With the
combinator nothing is raw but `null` and the lack of values, and the selected
nodes hand out their own values; these are the same as before when types are
selected under the type keyword itself. -/
theorem asked_with_trailing_combinator (path : String) :
    Part.split (path ++ " >") = Part.split path ++ [.child] ∧
    (∀ expander document trace,
      (Compiled.compile expander (path ++ " >")).selects expander document trace =
        (Compiled.compile expander path).selects expander document trace) ∧
    ∀ commands : List Command, (∀ command ∈ commands, command.WellFormed) →
      ∀ name handle, (Session.empty.after commands).node name = .ok handle →
        let workspace := (Session.empty.after commands).workspace
        let first? := fun path => (workspace.query handle path).1.map Selection.shown
        let all := fun path => (workspace.queryAll handle path).1.shown
        let expander := (workspace.view handle).expander
        let query := Compiled.compile expander path
        (all (path ++ " >") = all path ↔ query.endsInFinal = false ∨ (all path).items = []) ∧
          (first? (path ++ " >") = first? path ↔ query.endsInFinal = false ∨
            ∀ first, first? path = some first ∨ first? (path ++ " >") = some first →
              first.json.isNull = true) ∧
          (all (path ++ " >")).raw = (all path).items.isEmpty ∧
          (∀ first, first? (path ++ " >") = some first → first.raw = first.json.isNull) ∧
          ((all (path ++ " >")).items.map some =
            (query.matching expander handle.document (traces handle.document)).map fun trace =>
              trace.node?.bind fun entry => entry.value? handle.document) ∧
          (query.TypeInPlace expander handle.document →
            (all (path ++ " >")).items = (all path).items ∧
              (first? (path ++ " >")).map Shown.json = (first? path).map Shown.json) := by
  refine ⟨Part.split_trailing path, fun expander => Compiled.selects_trailing expander path, ?_⟩
  intro commands hwf name handle hname workspace first? all expander query
  have hcoherent := (Session.coherent_empty.after hwf).1
  have hfirst : first? = (workspace.view handle).first? :=
    funext fun path => (hcoherent.shown hname path).1
  have hall : all = (workspace.view handle).all :=
    funext fun path => (hcoherent.shown hname path).2.1
  have hwf : (workspace.view handle).document.WellFormed := (hcoherent.shown hname path).2.2
  rw [hfirst, hall]
  refine ⟨View.all_trailing_eq_iff hwf, View.first?_trailing_eq_iff hwf, ?_, ?_,
    View.map_some_items_trailing hwf, ?_⟩
  · rw [View.raw_all_trailing, Bool.eq_iff_iff, List.isEmpty_iff, List.isEmpty_iff]
    exact View.items_trailing_eq_nil_iff hwf
  · intro first hfirst
    exact View.raw_first?_trailing hwf hfirst
  · intro hplace
    have hitems := View.items_trailing hwf hplace
    exact ⟨hitems, View.json_first?_trailing hwf hitems⟩

/-- An object with a type. -/
def typed : Json := .object [("@type", .string "x")]

/-- A session that opens it without a context. -/
def openTyped : List Command :=
  [.factory (.ok .empty) true "f", .document "f" (.ok typed) "d"]

theorem wellFormed_of_mem_openTyped : ∀ command ∈ openTyped, command.WellFormed := by
  simp [openTyped, typed, Command.WellFormed, Json.WellFormed, Json.MembersWellFormed, Keyed.keys]

/-- The handle to the object. -/
def typedHandle : Handle := { document := typed, compiler := 0, lineage := 0 }

theorem node_openTyped : (Session.empty.after openTyped).node "d" = .ok typedHandle :=
  rfl

theorem queryAll_openTyped :
    ((Session.empty.after openTyped).workspace.queryAll typedHandle "@type").1.shown =
      { raw := true, items := [.string "x"] } := by
  decide +kernel

/-- The type of an object, with a combinator behind the keyword: the same value,
but not raw. -/
theorem asked_with_trailing_combinator_type :
    let workspace := (Session.empty.after openTyped).workspace
    let expander := (workspace.view typedHandle).expander
    ((∀ command ∈ openTyped, command.WellFormed) ∧
      (Session.empty.after openTyped).node "d" = .ok typedHandle ∧
      (Compiled.compile expander "@type").TypeInPlace expander typed) ∧
      (workspace.queryAll typedHandle "@type >").1.shown =
        { raw := false, items := [.string "x"] } := by
  intro workspace expander
  obtain ⟨-, -, hraw, -, -, hitems⟩ := (asked_with_trailing_combinator "@type").2.2 openTyped
    wellFormed_of_mem_openTyped "d" _ node_openTyped
  have hplace : (Compiled.compile expander "@type").TypeInPlace expander typed := by
    have htraces : ((traces typed).filter
        ((Compiled.compile expander "@type").selects expander typed)).all
          (fun trace => trace.node?.map Entry.key == some Keyword.type) = true := by
      decide +kernel
    intro _ trace htrace hselects
    exact eq_of_beq (List.all_eq_true.mp htraces trace (List.mem_filter.mpr ⟨htrace, hselects⟩))
  refine ⟨⟨wellFormed_of_mem_openTyped, node_openTyped, hplace⟩, ?_⟩
  have hraw := hraw.trans (congrArg (fun shown : ShownAll => shown.items.isEmpty) queryAll_openTyped)
  have hitems := (hitems hplace).1.trans (congrArg ShownAll.items queryAll_openTyped)
  exact congrArg₂ ShownAll.mk hraw hitems

/-- A keyword is not handed out in the same way with a combinator behind it. -/
theorem not_asked_alike_with_trailing_combinator :
    ¬ ∀ commands : List Command, (∀ command ∈ commands, command.WellFormed) →
      ∀ name handle, (Session.empty.after commands).node name = .ok handle → ∀ path,
        let workspace := (Session.empty.after commands).workspace
        (workspace.query handle (path ++ " >")).1.map Selection.shown =
            (workspace.query handle path).1.map Selection.shown ∧
          (workspace.queryAll handle (path ++ " >")).1.shown =
            (workspace.queryAll handle path).1.shown := by
  intro h
  obtain ⟨-, hall⟩ := h openTyped wellFormed_of_mem_openTyped "d" _ node_openTyped "@type"
  rw [queryAll_openTyped] at hall
  have htrailing : ((Session.empty.after openTyped).workspace.queryAll typedHandle
      "@type >").1.shown.raw = false := by
    decide +kernel
  have hraw : ((Session.empty.after openTyped).workspace.queryAll typedHandle
      "@type >").1.shown.raw = true := congrArg ShownAll.raw hall
  rw [htrailing] at hraw
  contradiction

end LinkedPath
