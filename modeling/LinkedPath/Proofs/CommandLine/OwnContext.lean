import LinkedPath.Proofs.CommandLine.Output

/-!
# The context that a document carries

A context is unwrapped before it is read: an object under the context keyword
stands for the value around it.  A document without an option for its context
enters this step with its own context, and a file or a text that holds the
document enters it with the document, one level further out.  Both ways end at
the same object as long as the document carries an object that wraps no other
one (`readContext_document`, `readContext_value`).
-/

namespace LinkedPath.CommandLine

variable {surroundings : Surroundings} {document : Json}

/-! ## Unwrapping -/

theorem unwrapContext_of_object {value : Json} {members : List (String × Json)}
    (h : value.member? Keyword.context = some (.object members)) :
    unwrapContext value = .object members := by
  rw [unwrapContext, h]

theorem unwrapContext_of_not_object {value : Json}
    (h : ∀ inner, value.member? Keyword.context = some inner → inner.isObject = false) :
    unwrapContext value = value := by
  unfold unwrapContext
  split
  · rename_i members hmember
    exact absurd (h _ hmember) (by simp [Json.isObject])
  · rfl

/-- A member is looked up in objects only. -/
theorem isObject_of_member? {value inner : Json} {key : String}
    (h : value.member? key = some inner) : value.isObject = true := by
  cases value <;> simp [Json.member?, Json.isObject] at h ⊢

theorem isObject_unwrapContext {value : Json} (h : value.isObject = true) :
    (unwrapContext value).isObject = true := by
  unfold unwrapContext
  split
  · rfl
  · exact h

theorem ofJson_of_isObject {value : Json} (h : value.isObject = true) :
    ∃ context, Context.ofJson value = .ok context := by
  cases value <;> simp [Json.isObject] at h
  exact ⟨_, rfl⟩

/-! ## Sources -/

/-- Without an option the context is what the document has under the
keyword. -/
theorem readContext_document (surroundings : Surroundings) {value : Json}
    (h : document.member? Keyword.context = some value) :
    readContext surroundings (some document) .document =
      (Context.ofJson (unwrapContext value)).mapError Trouble.refused := by
  simp [readContext, contextValue?, h]
  rfl

/-- A source holds a value: it is a text that reads as the value, or a file with
such a text. -/
def ContextSource.Holds (surroundings : Surroundings) (value : Json) : ContextSource → Prop
  | .document => False
  | .file name => ∃ text, surroundings.files name = .ok text ∧ Json.parse? text = some value
  | .inline text => Json.parse? text = some value

/-- With an option the context is the value that the source holds. -/
theorem readContext_value (document? : Option Json) {source : ContextSource} {value : Json}
    (h : source.Holds surroundings value) :
    readContext surroundings document? source =
      (Context.ofJson (unwrapContext value)).mapError Trouble.refused := by
  cases source with
  | document => exact absurd h (by simp [ContextSource.Holds])
  | file name =>
      obtain ⟨text, hfile, htext⟩ := h
      rw [readContext, contextValue?, hfile]
      show ((some <$> parse .parsingContext text) >>= _) = _
      rw [parse, htext]
      rfl
  | inline text =>
      have htext : Json.parse? text = some value := h
      rw [readContext, contextValue?, parse, htext]
      rfl

/-! ## Answers -/

section Question

variable {path : String} {file? : Option String} {source other : ContextSource}
variable {all pretty caching : Bool}

/-- What a question about a document finds depends on its source through the
context only. -/
theorem found_of_readDocument (h : readDocument surroundings file? = .ok document)
    (path : String) (source : ContextSource) :
    Request.found surroundings path file? source =
      (readContext surroundings (some document) source).map fun context =>
        (View.all { document, expander := context.expander } path).items := by
  rw [Request.found, h]
  show (readContext surroundings (some document) source >>= fun context =>
      pure (View.all { document, expander := context.expander } path).items) = _
  cases readContext surroundings (some document) source with
  | error trouble => rfl
  | ok context => rfl

theorem answer_congr_source (hdocument : readDocument surroundings file? = .ok document)
    (h : readContext surroundings (some document) source =
      readContext surroundings (some document) other) :
    (Request.query path file? source all pretty caching).answer surroundings =
      (Request.query path file? other all pretty caching).answer surroundings := by
  rw [Request.answer, Request.answer, Request.run_query, Request.run_query,
    found_of_readDocument hdocument, found_of_readDocument hdocument, h]

theorem exitCode_answer_of_ok (hdocument : readDocument surroundings file? = .ok document)
    {context : Context} (h : readContext surroundings (some document) source = .ok context) :
    ((Request.query path file? source all pretty caching).answer surroundings).exitCode = 0 := by
  have hfound := found_of_readDocument hdocument path source
  rw [h] at hfound
  rw [Request.answer_query_of_ok all pretty caching hfound]

/-- A context that is refused ends the question without output. -/
theorem answer_of_error (hdocument : readDocument surroundings file? = .ok document)
    {trouble : Trouble} (h : readContext surroundings (some document) source = .error trouble) :
    (Request.query path file? source all pretty caching).answer surroundings =
      { exitCode := 1, output := "", report? := some ("Error: " ++ trouble.message) } := by
  have hfound := found_of_readDocument hdocument path source
  rw [h] at hfound
  exact Request.answer_query_of_error all pretty caching hfound

end Question

/-! ## Three ways to one context -/

/-- A document carries an object as its context, and this object wraps no other
one. -/
def CarriesContext (document : Json) : Prop :=
  ∃ members, document.member? Keyword.context = some (.object members) ∧
    ∀ inner, (Json.object members).member? Keyword.context = some inner → inner.isObject = false

theorem unwrapContext_of_carriesContext {value : Json} (h : CarriesContext document)
    (hvalue : document.member? Keyword.context = some value) :
    unwrapContext value = unwrapContext document := by
  obtain ⟨members, hmembers, hinner⟩ := h
  rw [hmembers, Option.some.injEq] at hvalue
  subst hvalue
  rw [unwrapContext_of_object hmembers, unwrapContext_of_not_object hinner]

/-- Ways to the context of a document.  A document with something under the
context keyword is asked about without an option for the context, with a file
that holds the document, and with a text that does.  The last two answers are
always the same, and they are no failure.  The first one is the same as they
are if the document carries an object that wraps no other one; if it carries
anything but an object, the question fails without output. -/
theorem own_context_by_three_ways (surroundings : Surroundings) (document value : Json)
    (path : String) (file? : Option String) (all pretty caching : Bool) (name text : String)
    (bare byFile inline : List String)
    (hdocument : readDocument surroundings file? = .ok document)
    (hvalue : document.member? Keyword.context = some value)
    (hfile : (ContextSource.file name).Holds surroundings document)
    (htext : (ContextSource.inline text).Holds surroundings document)
    (hbare : Request.ofArguments bare = .ok (.query path file? .document all pretty caching))
    (hbyFile : Request.ofArguments byFile =
      .ok (.query path file? (.file name) all pretty caching))
    (hinline : Request.ofArguments inline =
      .ok (.query path file? (.inline text) all pretty caching)) :
    answer surroundings byFile = answer surroundings inline ∧
      (answer surroundings byFile).exitCode = 0 ∧
      (CarriesContext document → answer surroundings bare = answer surroundings byFile) ∧
      (value.isObject = false →
        (answer surroundings bare).exitCode = 1 ∧ (answer surroundings bare).output = "") := by
  have hcontextFile := readContext_value (some document) hfile
  have hcontextText := readContext_value (some document) htext
  have hcontextBare := readContext_document surroundings hvalue
  rw [answer_of_ofArguments hbare, answer_of_ofArguments hbyFile, answer_of_ofArguments hinline]
  refine ⟨?_, ?_, ?_, ?_⟩
  · exact answer_congr_source hdocument (hcontextFile.trans hcontextText.symm)
  · obtain ⟨context, hcontext⟩ :=
      ofJson_of_isObject (isObject_unwrapContext (isObject_of_member? hvalue))
    rw [hcontext] at hcontextFile
    exact exitCode_answer_of_ok hdocument hcontextFile
  · intro hcarries
    rw [unwrapContext_of_carriesContext hcarries hvalue] at hcontextBare
    exact answer_congr_source hdocument (hcontextBare.trans hcontextFile.symm)
  · intro hobject
    have hplain : unwrapContext value = value := by
      apply unwrapContext_of_not_object
      intro inner hinner
      exact absurd (isObject_of_member? hinner) (by simp [hobject])
    obtain ⟨fault, hfault⟩ := (Context.ofJson_eq_error_iff value).mpr hobject
    rw [hplain, hfault] at hcontextBare
    rw [answer_of_error hdocument hcontextBare]
    exact ⟨rfl, rfl⟩

/-- A document with one alias, asked about for all values. -/
theorem own_context_by_three_ways_oneAlias :
    let text := "\x7b\"@context\":\x7b\"e\":\"u:\"\x7d,\"u:x\":true\x7d"
    let document : Json :=
      .object [("@context", .object [("e", .string "u:")]), ("u:x", .bool true)]
    let surroundings : Surroundings := { files := fun _ => .ok text, input := .ok text }
    readDocument surroundings none = .ok document ∧ CarriesContext document ∧
      answer surroundings ["query", "e:x", "--all"] =
        answer surroundings ["query", "-cd.json", "e:x", "--all"] ∧
      answer surroundings ["query", "-cd.json", "e:x", "--all"] =
        answer surroundings ["query", "e:x", "--all", "--context-json", text] := by
  have hinline : Request.ofArguments ["query", "e:x", "--all", "--context-json",
        "\x7b\"@context\":\x7b\"e\":\"u:\"\x7d,\"u:x\":true\x7d"] =
      .ok (.query "e:x" none (.inline "\x7b\"@context\":\x7b\"e\":\"u:\"\x7d,\"u:x\":true\x7d")
        true false true) := rfl
  have hparse : Json.parse? "\x7b\"@context\":\x7b\"e\":\"u:\"\x7d,\"u:x\":true\x7d" =
      some (.object [("@context", .object [("e", .string "u:")]), ("u:x", .bool true)]) := by
    decide +kernel
  intro text document surroundings
  have hdocument : readDocument surroundings none = .ok document := by
    show parse .parsingDocument text = .ok document
    rw [parse, hparse]
  have hcarries : CarriesContext document :=
    ⟨[("e", .string "u:")], rfl, nofun⟩
  obtain ⟨hsame, -, hbare, -⟩ := own_context_by_three_ways surroundings document
    (.object [("e", .string "u:")]) "e:x" none true false true "d.json" text
    ["query", "e:x", "--all"] ["query", "-cd.json", "e:x", "--all"]
    ["query", "e:x", "--all", "--context-json", text] hdocument rfl ⟨text, rfl, hparse⟩ hparse
    rfl rfl hinline
  exact ⟨hdocument, hcarries, hbare hcarries, hsame⟩

/-- A context that is a string is refused without an option, and is passed over
when the document is given as a context itself. -/
theorem string_context_refused_without_option :
    let text := "\x7b\"@context\":\"x\",\"a\":true\x7d"
    let document : Json := .object [("@context", .string "x"), ("a", .bool true)]
    let surroundings : Surroundings := { files := fun _ => .ok text, input := .ok text }
    readDocument surroundings none = .ok document ∧
      (ContextSource.file "d.json").Holds surroundings document ∧
      (answer surroundings ["query", "a"]).exitCode = 1 ∧
      (answer surroundings ["query", "a", "-c", "d.json"]).exitCode = 0 := by
  have hparse : Json.parse? "\x7b\"@context\":\"x\",\"a\":true\x7d" =
      some (.object [("@context", .string "x"), ("a", .bool true)]) := by
    decide +kernel
  intro text document surroundings
  have hdocument : readDocument surroundings none = .ok document := by
    show parse .parsingDocument text = .ok document
    rw [parse, hparse]
  have hfile : (ContextSource.file "d.json").Holds surroundings document :=
    ⟨text, rfl, hparse⟩
  have hbare : Request.ofArguments ["query", "a"] =
      .ok (.query "a" none .document false false true) := rfl
  have hbyFile : Request.ofArguments ["query", "a", "-c", "d.json"] =
      .ok (.query "a" none (.file "d.json") false false true) := rfl
  have hvalue : document.member? Keyword.context = some (.string "x") := rfl
  have hrefused : readContext surroundings (some document) .document =
      .error (.refused (Fault.notAnObject (.string "x"))) :=
    readContext_document surroundings hvalue
  have hread : readContext surroundings (some document) (.file "d.json") =
      (Context.ofJson document).mapError Trouble.refused :=
    readContext_value (some document) hfile
  refine ⟨hdocument, hfile, ?_, ?_⟩
  · rw [answer_of_ofArguments hbare, answer_of_error hdocument hrefused]
  · rw [answer_of_ofArguments hbyFile]
    exact exitCode_answer_of_ok hdocument hread

end LinkedPath.CommandLine
