import LinkedPath.CommandLine.Run
import LinkedPath.Proofs.CommandLine.Flags
import LinkedPath.Proofs.Json.Layout
import LinkedPath.Proofs.Json.Reading
import LinkedPath.Proofs.Session.FirstAndAll

/-!
# What a request prints

A request opens its document in a workspace of its own and asks once.  So it
prints what the document gives without caches (`ask_all`), and the first value
that it prints is the head of all values that it prints (`ask_first`).  Whether
a request fails depends on nothing but what it reads (`run_query`).  All values
are printed as the list of their texts, and the first one as the first of these
texts (`print_array`, `print_headD`).

The last theorem puts the answers of handles and the output of the command line
together.
-/

namespace LinkedPath

namespace CommandLine

variable {document : Json}

/-! ## Values -/

/-- A workspace with one handle, as a request uses it, is in good order. -/
theorem serves_bind (hwf : document.WellFormed) (context : Context) (caching : Bool) :
    let made := Workspace.empty.factory context caching
    let bound := made.2.bind made.1 document
    bound.2.Faithful ∧ bound.2.Serves [bound.1] ∧
      bound.2.view bound.1 = { document, expander := context.expander } := by
  have hempty := Session.coherent_empty
  have hlt : (Workspace.empty.factory context caching).1.compiler <
      (Workspace.empty.factory context caching).2.compilers.size := by
    rw [Workspace.size_factory]
    exact Nat.lt_succ_self _
  refine ⟨(hempty.faithful.factory context caching).of_compilers_eq rfl,
    (hempty.serves.factory context caching).newHandle hwf hlt caching, ?_⟩
  rw [Workspace.view]
  show ({ document, expander := ((Workspace.empty.factory context caching).2.compiler
    Workspace.empty.compilers.size).expander } : View) = _
  rw [Workspace.compiler_factory, if_pos rfl]
  rfl

theorem ask_all (hwf : document.WellFormed) (context : Context) (caching : Bool) (path : String) :
    ask context caching document path true =
      .array (View.all { document, expander := context.expander } path).items := by
  obtain ⟨hfaithful, hserves, hview⟩ := serves_bind hwf context caching
  have hall := (hserves.queryAll hfaithful List.mem_cons_self path).1
  rw [hview] at hall
  rw [← hall, Selections.items_shown]
  rfl

theorem ask_first (hwf : document.WellFormed) (context : Context) (caching : Bool)
    (path : String) :
    ask context caching document path false =
      (View.all { document, expander := context.expander } path).items.headD .null := by
  obtain ⟨hfaithful, hserves, hview⟩ := serves_bind hwf context caching
  have hfirst := (hserves.query hfaithful List.mem_cons_self path).1
  rw [hview, View.first?_eq hwf] at hfirst
  rw [ask, List.headD_eq_head?_getD]
  simp only [Bool.false_eq_true, if_false]
  -- The answer is printed whether it is raw or not.
  split
  · rename_i selection hselection
    rw [hselection, Option.map_some] at hfirst
    obtain ⟨value, hvalue, hshown⟩ := Option.map_eq_some_iff.mp hfirst.symm
    rw [hvalue, ← selection.json_shown, ← hshown]
    rfl
  · rename_i hnone
    rw [hnone, Option.map_none] at hfirst
    rw [Option.map_eq_none_iff.mp hfirst.symm]
    rfl

/-! ## Requests -/

theorem wellFormed_of_parse {trouble : Trouble} {text : String}
    (h : parse trouble text = .ok document) : document.WellFormed := by
  unfold parse at h
  split at h
  · rename_i value hparse
    cases h
    exact Json.wellFormed_of_parse? hparse
  · contradiction

/-- The document of a request is well formed. -/
theorem wellFormed_of_readDocument {surroundings : Surroundings} {file? : Option String}
    (h : readDocument surroundings file? = .ok document) : document.WellFormed := by
  cases file? with
  | some name =>
      obtain ⟨text, -, hparse⟩ := bind_eq_ok_iff.mp h
      exact wellFormed_of_parse hparse
  | none =>
      obtain ⟨text, -, hparse⟩ := bind_eq_ok_iff.mp h
      exact wellFormed_of_parse hparse

/-- All values that a request can print. -/
def Request.found (surroundings : Surroundings) (path : String) (file? : Option String)
    (source : ContextSource) : Except Trouble (List Json) := do
  let document ← readDocument surroundings file?
  let context ← readContext surroundings (some document) source
  return (View.all { document, expander := context.expander } path).items

/-- A request prints all values or the first one of them, whether it keeps
traces or not. -/
theorem Request.run_query (surroundings : Surroundings) (path : String) (file? : Option String)
    (source : ContextSource) (all pretty caching : Bool) :
    (Request.query path file? source all pretty caching).run surroundings =
      (Request.found surroundings path file? source).map fun items =>
        print pretty (if all then .array items else items.headD .null) := by
  rw [run, found]
  cases hdocument : readDocument surroundings file? with
  | error trouble => rfl
  | ok document =>
      have hwf := wellFormed_of_readDocument hdocument
      show (readContext surroundings (some document) source >>= fun context =>
          pure (print pretty (ask context caching document path all))) =
        (readContext surroundings (some document) source >>= fun context =>
          pure (View.all { document, expander := context.expander } path).items).map _
      cases readContext surroundings (some document) source with
      | error trouble => rfl
      | ok context =>
          refine congrArg (fun value => Except.ok (print pretty value)) ?_
          cases all with
          | true => exact ask_all hwf context caching path
          | false => exact ask_first hwf context caching path

/-! ## Answers on the command line -/

section Question

variable {surroundings : Surroundings} {path : String} {file? : Option String}
variable {source : ContextSource} {items : List Json} {trouble : Trouble}
variable {arguments : List String}

/-- A question that finds no values for some trouble fails without output. -/
theorem Request.answer_query_of_error (all pretty caching : Bool)
    (h : Request.found surroundings path file? source = .error trouble) :
    (Request.query path file? source all pretty caching).answer surroundings =
      { exitCode := 1, output := "", report? := some ("Error: " ++ trouble.message) } := by
  rw [answer, run_query, h]
  rfl

theorem Request.answer_query_of_ok (all pretty caching : Bool)
    (h : Request.found surroundings path file? source = .ok items) :
    (Request.query path file? source all pretty caching).answer surroundings =
      { exitCode := 0
        output := print pretty (if all then .array items else items.headD .null)
        report? := none } := by
  rw [answer, run_query, h]
  rfl

/-- All values are printed as the list of their texts. -/
theorem print_array (pretty : Bool) (items : List Json) :
    print pretty (.array items) =
      Json.listed pretty (items.map (Json.written pretty)) ++ "\n" := by
  rw [← Json.written_array]
  rfl

/-- The first value is printed as the first of these texts. -/
theorem print_headD (pretty : Bool) (items : List Json) :
    print pretty (items.headD .null) =
      (items.map (Json.written pretty)).headD "null" ++ "\n" := by
  cases items with
  | nil => cases pretty <;> rfl
  | cons item rest => rfl

theorem answer_of_ofArguments {request : Request}
    (h : Request.ofArguments arguments = .ok request) :
    answer surroundings arguments = request.answer surroundings := by
  rw [answer, h]

end Question

end CommandLine

/-! ## First and all -/

/-- The first value is the head of all values.  In every session that commands
lead to, a named handle has a first value exactly when all its values are not
empty; then the first value is the head of all values, and it has their form
unless it is `null`.  All values are handed out by a list of traces: those of
the document that carry an embedding, in document order and without a node
twice.

On the command line two lists of arguments that ask the same question, one for
the first value and one for all of them, whether they keep traces or not, fail
for the same reason, or else print the first of the values' texts, `null` if
there is none, and the list of all these texts.  With the flag for all values in
front, arguments that ask for the first one ask the same question for all, and
with the flag against traces in front they ask the same question without them. -/
theorem first_is_head_of_all :
    (∀ commands : List Command, (∀ command ∈ commands, command.WellFormed) →
      ∀ name handle, (Session.empty.after commands).node name = .ok handle → ∀ path,
        let workspace := (Session.empty.after commands).workspace
        let first? := (workspace.query handle path).1.map Selection.shown
        let all := (workspace.queryAll handle path).1.shown
        let expander := (workspace.view handle).expander
        let query := Compiled.compile expander path
        (first? = none ↔ all.items = []) ∧
          (∀ first, first? = some first → all.items.head? = some first.json ∧
            (first.json.isNull = false → first.raw = all.raw)) ∧
          ∃ selected : List Trace, selected.Sublist (traces handle.document) ∧
            (∀ trace, trace ∈ selected ↔ trace ∈ traces handle.document ∧
              query.isVacuous = false ∧
                ∃ position, query.Embedding expander handle.document trace position) ∧
            (selected.map Trace.pointerText?).Nodup ∧
            all.items.map some = selected.map (query.resolve? handle.document)) ∧
    (∀ surroundings path file? source pretty caching caching' one every,
      CommandLine.Request.ofArguments one = .ok (.query path file? source false pretty caching) →
      CommandLine.Request.ofArguments every = .ok (.query path file? source true pretty caching') →
        match CommandLine.Request.found surroundings path file? source with
        | .error trouble =>
            let failure : CommandLine.Answer :=
              { exitCode := 1, output := "", report? := some ("Error: " ++ trouble.message) }
            CommandLine.answer surroundings one = failure ∧
              CommandLine.answer surroundings every = failure
        | .ok items =>
            let texts := items.map (Json.written pretty)
            CommandLine.answer surroundings one =
                { exitCode := 0, output := texts.headD "null" ++ "\n", report? := none } ∧
              CommandLine.answer surroundings every =
                { exitCode := 0, output := Json.listed pretty texts ++ "\n", report? := none }) ∧
    ∀ path file? source all pretty caching arguments,
      CommandLine.Request.ofArguments ("query" :: arguments) =
          .ok (.query path file? source all pretty caching) →
        (all = false → CommandLine.Request.ofArguments ("query" :: "--all" :: arguments) =
          .ok (.query path file? source true pretty caching)) ∧
        (caching = true →
          CommandLine.Request.ofArguments ("query" :: "--no-cache" :: arguments) =
            .ok (.query path file? source all pretty false)) := by
  refine ⟨?_, ?_, ?_⟩
  · intro commands hwf name handle hname path workspace first? all expander query
    obtain ⟨hfirst, hall, hwf⟩ := (Session.coherent_empty.after hwf).1.shown hname path
    rw [show first? = (workspace.view handle).first? path from hfirst,
      show all = (workspace.view handle).all path from hall]
    refine ⟨View.first?_eq_none_iff hwf path, ?_, ?_⟩
    · intro first hfirst
      exact ⟨View.head?_items_all hwf hfirst, View.raw_first? hwf hfirst⟩
    · exact ⟨query.matching expander handle.document (traces handle.document),
        List.filter_sublist, fun _ => Compiled.mem_matching_iff,
        Compiled.nodup_pointerText?_matching hwf, Compiled.map_some_allOf hwf⟩
  · intro surroundings path file? source pretty caching caching' one every hone hevery
    rw [CommandLine.answer_of_ofArguments hone, CommandLine.answer_of_ofArguments hevery]
    split
    · rename_i trouble hfound
      exact ⟨CommandLine.Request.answer_query_of_error false pretty caching hfound,
        CommandLine.Request.answer_query_of_error true pretty caching' hfound⟩
    · rename_i items hfound
      intro texts
      rw [CommandLine.Request.answer_query_of_ok false pretty caching hfound,
        CommandLine.Request.answer_query_of_ok true pretty caching' hfound, if_pos rfl, if_neg nofun,
        CommandLine.print_headD, CommandLine.print_array]
      exact ⟨rfl, rfl⟩
  · intro path file? source all pretty caching arguments h
    refine ⟨?_, ?_⟩
    · rintro rfl
      exact CommandLine.Request.ofArguments_all h
    · rintro rfl
      exact CommandLine.Request.ofArguments_noCache h

/-- A handle that keeps no traces and was asked before, on a document whose first
selected value is `null`; and the same document on the command line. -/
theorem first_is_head_of_all_null :
    let document : Json := .object [("a", .array [.null, .bool true])]
    let commands : List Command :=
      [.factory (.ok .empty) false "f", .document "f" (.ok document) "d", .query "d" "a" none]
    let workspace := (Session.empty.after commands).workspace
    let surroundings := CommandLine.Surroundings.ofFolder [] "\x7b\"a\":[null,true]\x7d"
    (∀ command ∈ commands, command.WellFormed) ∧
      (∃ handle, (Session.empty.after commands).node "d" = .ok handle ∧
        let first? := (workspace.query handle "a").1.map Selection.shown
        let all := (workspace.queryAll handle "a").1.shown
        (first? = none ↔ all.items = []) ∧
          ∀ first, first? = some first → all.items.head? = some first.json) ∧
      (CommandLine.answer surroundings ["query", "a"]).output = "null\n" ∧
      (CommandLine.answer surroundings ["query", "--all", "a"]).output = "[null,true]\n" := by
  intro document commands workspace surroundings
  have hdocument : document.WellFormed := by
    simp [document, Json.WellFormed, Json.AllWellFormed, Json.MembersWellFormed, Keyed.keys]
  have hwf : ∀ command ∈ commands, command.WellFormed := by
    simp [commands, Command.WellFormed, hdocument]
  have hlookup : (Session.empty.after commands).nodes.lookup "d" =
      some { document, compiler := 0, lineage := 0 } := by
    decide +kernel
  have hname : (Session.empty.after commands).node "d" =
      .ok { document, compiler := 0, lineage := 0 } := by
    rw [Session.node, hlookup]
  have hone : CommandLine.Request.ofArguments ["query", "a"] =
      .ok (.query "a" none .document false false true) := rfl
  have hfound : CommandLine.Request.found surroundings "a" none .document =
      .ok [.null, .bool true] := by
    with_unfolding_all rfl
  obtain ⟨hhandles, hanswers, hflags⟩ := first_is_head_of_all
  obtain ⟨hnone, hsome, _⟩ := hhandles commands hwf "d" _ hname "a"
  have hevery := (hflags "a" none .document false false true ["a"] hone).1 rfl
  have hboth := hanswers surroundings "a" none .document false true true _ _ hone hevery
  rw [hfound] at hboth
  refine ⟨hwf, ⟨_, hname, hnone, fun first hfirst => (hsome first hfirst).1⟩, ?_, ?_⟩
  · rw [hboth.1]
    rfl
  · rw [hboth.2]
    rfl

end LinkedPath
