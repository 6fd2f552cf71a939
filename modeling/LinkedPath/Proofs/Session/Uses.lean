import LinkedPath.Proofs.Session.Calls

/-!
# Uses of a workspace

What happens in a workspace is a run of uses: factories are made, documents are
opened, handles are switched and asked, texts are compiled and compilers are
cleared.  A compiler notices its own calls and nothing else (`compiler_after`),
whichever handle or factory they come from.  So the calls decide which stored
selector a use gets, and what the cache of a compiler counts.
-/

namespace LinkedPath

namespace Workspace

/-- A use of a workspace. -/
inductive Use
  | factory (context : Context) (caching : Bool)
  | bind (factory : Factory) (document : Json)
  | setCaching (handle : Handle) (enabled : Bool)
  | compile (number : Nat) (source : String)
  | query (handle : Handle) (path : String)
  | queryAll (handle : Handle) (path : String)
  | clear (number : Nat)

/-- The workspace after a use. -/
def perform (workspace : Workspace) : Use → Workspace
  | .factory context caching => (workspace.factory context caching).2
  | .bind factory document => (workspace.bind factory document).2
  | .setCaching handle enabled => workspace.setCaching handle enabled
  | .compile number source => (workspace.compile number source).2
  | .query handle path => (workspace.query handle path).2
  | .queryAll handle path => (workspace.queryAll handle path).2
  | .clear number => workspace.clear number

/-- The workspace after some uses. -/
def after (workspace : Workspace) (uses : List Use) : Workspace :=
  uses.foldl perform workspace

/-- The call that a use makes to the compiler of a number.  A question compiles
its path, whether it selects anything or not. -/
def Use.call? (number : Nat) : Use → Option Compiler.Call
  | .compile other source => if other = number then some (.ask source) else none
  | .query handle path | .queryAll handle path =>
      if handle.compiler = number then some (.ask path) else none
  | .clear other => if other = number then some .clear else none
  | .factory _ _ | .bind _ _ | .setCaching _ _ => none

/-! ## Compilers -/

variable {workspace : Workspace} {number : Nat}

theorem compilers_deliver (workspace : Workspace) (handle : Handle) (query : Compiled)
    (first? : Option Json) :
    (workspace.deliver handle query first?).2.compilers = workspace.compilers := by
  cases first? with
  | none => rfl
  | some value =>
      rw [deliver]
      split <;> rfl

theorem compilers_children (workspace : Workspace) (handle : Handle) (values : List Json) :
    (workspace.children handle values).2.compilers = workspace.compilers := by
  induction values generalizing workspace with
  | nil => rfl
  | cons value rest ih => exact ih (workspace.child handle value).2

theorem compilers_deliverAll (workspace : Workspace) (handle : Handle) (query : Compiled)
    (values : List Json) :
    (workspace.deliverAll handle query values).2.compilers = workspace.compilers := by
  rw [deliverAll]
  split
  · rfl
  · exact compilers_children workspace handle values

/-- To the compilers a question is the compilation of its path. -/
theorem compilers_query (workspace : Workspace) (handle : Handle) (path : String) :
    (workspace.query handle path).2.compilers =
      (workspace.compile handle.compiler path).2.compilers := by
  rw [query_eq]
  simp only
  split
  · rfl
  · rw [compilers_deliver, compilers_keptTraces?]

theorem compilers_queryAll (workspace : Workspace) (handle : Handle) (path : String) :
    (workspace.queryAll handle path).2.compilers =
      (workspace.compile handle.compiler path).2.compilers := by
  rw [queryAll_eq]
  simp only
  split
  · rfl
  · rw [compilers_deliverAll, compilers_keptTraces?]

theorem compiler_congr {first second : Workspace} (h : first.compilers = second.compilers)
    (number : Nat) : first.compiler number = second.compiler number := by
  rw [compiler, compiler, h]

/-- Compiling reaches one compiler. -/
theorem compiler_compile_of_lt (hlt : number < workspace.compilers.size) (other : Nat)
    (source : String) :
    (workspace.compile other source).2.compiler number =
      if other = number then ((workspace.compiler number).compile source).2
      else workspace.compiler number := by
  by_cases hother : other = number
  · subst hother
    simp [compile, compiler, Array.getD_eq_getD_getElem?, hlt]
  · simp [compile, compiler, Array.getD_eq_getD_getElem?, hother]

theorem compiler_clear_of_lt (hlt : number < workspace.compilers.size) (other : Nat) :
    (workspace.clear other).compiler number =
      if other = number then (workspace.compiler number).clear
      else workspace.compiler number := by
  by_cases hother : other = number
  · subst hother
    simp [clear, compiler, Array.getD_eq_getD_getElem?, hlt]
  · simp [clear, compiler, Array.getD_eq_getD_getElem?, hother]

/-- A use is to a compiler the call that it makes, if any. -/
theorem compiler_perform (hlt : number < workspace.compilers.size) (use : Use) :
    (workspace.perform use).compiler number =
      (workspace.compiler number).after (use.call? number).toList := by
  cases use with
  | factory context caching =>
      show (workspace.factory context caching).2.compiler number = _
      rw [compiler_factory, if_neg (Nat.ne_of_lt hlt)]
      rfl
  | bind factory document => rfl
  | setCaching handle enabled => rfl
  | compile other source =>
      show (workspace.compile other source).2.compiler number = _
      rw [compiler_compile_of_lt hlt, Use.call?]
      split <;> rfl
  | query handle path =>
      show (workspace.query handle path).2.compiler number = _
      rw [compiler_congr (compilers_query workspace handle path), compiler_compile_of_lt hlt,
        Use.call?]
      split <;> rfl
  | queryAll handle path =>
      show (workspace.queryAll handle path).2.compiler number = _
      rw [compiler_congr (compilers_queryAll workspace handle path), compiler_compile_of_lt hlt,
        Use.call?]
      split <;> rfl
  | clear other =>
      show (workspace.clear other).compiler number = _
      rw [compiler_clear_of_lt hlt, Use.call?]
      split <;> rfl

theorem size_le_perform (workspace : Workspace) (use : Use) :
    workspace.compilers.size ≤ (workspace.perform use).compilers.size := by
  cases use with
  | factory context caching =>
      show _ ≤ (workspace.factory context caching).2.compilers.size
      rw [size_factory]
      exact Nat.le_succ _
  | bind | setCaching => exact Nat.le_refl _
  | compile other source => exact Nat.le_of_eq (size_compile workspace other source).symm
  | query handle path =>
      have hsize := congrArg Array.size (compilers_query workspace handle path)
      exact Nat.le_of_eq (hsize.trans (size_compile workspace handle.compiler path)).symm
  | queryAll handle path =>
      have hsize := congrArg Array.size (compilers_queryAll workspace handle path)
      exact Nat.le_of_eq (hsize.trans (size_compile workspace handle.compiler path)).symm
  | clear other => simp [perform, clear]

theorem size_le_after (workspace : Workspace) (uses : List Use) :
    workspace.compilers.size ≤ (workspace.after uses).compilers.size := by
  induction uses generalizing workspace with
  | nil => exact Nat.le_refl _
  | cons use rest ih => exact Nat.le_trans (size_le_perform workspace use) (ih _)

/-- The calls that uses make to the compiler of a number. -/
def calls (number : Nat) (uses : List Use) : List Compiler.Call :=
  uses.filterMap (Use.call? number)

theorem mem_calls_clear_iff (number : Nat) (uses : List Use) :
    .clear ∈ calls number uses ↔ .clear number ∈ uses := by
  rw [calls, List.mem_filterMap]
  constructor
  · intro h
    obtain ⟨use, huse, hcall⟩ := h
    cases use <;> simp [Use.call?] at hcall
    subst hcall
    exact huse
  · intro h
    exact ⟨.clear number, h, by simp [Use.call?]⟩

/-- Uses are to a compiler the calls that they make. -/
theorem compiler_after (hlt : number < workspace.compilers.size) (uses : List Use) :
    (workspace.after uses).compiler number =
      (workspace.compiler number).after (calls number uses) := by
  induction uses generalizing workspace with
  | nil => rfl
  | cons use rest ih =>
      have hstep := compiler_perform hlt use
      have hrest := ih (Nat.lt_of_lt_of_le hlt (size_le_perform workspace use))
      show ((workspace.perform use).after rest).compiler number = _
      rw [hrest, hstep]
      cases hcall : use.call? number with
      | none => rw [calls, calls, List.filterMap_cons_none hcall]; rfl
      | some call => rw [calls, calls, List.filterMap_cons_some hcall]; rfl

/-! ## What uses get -/

/-- The stored selector that a use gets from a compiler. -/
def Use.stored? (workspace : Workspace) : Use → Option Stored
  | .compile number source => some (workspace.compile number source).1
  | .query handle path | .queryAll handle path =>
      some (workspace.compile handle.compiler path).1
  | .factory _ _ | .bind _ _ | .setCaching _ _ | .clear _ => none

theorem Use.stored?_of_call? {use : Use} {source : String}
    (h : use.call? number = some (.ask source)) (workspace : Workspace) :
    use.stored? workspace = some ((workspace.compiler number).compile source).1 := by
  cases use with
  | factory | bind | setCaching => simp [call?] at h
  | clear other => simp [call?] at h
  | compile other text | query handle path | queryAll handle path =>
      simp only [call?, Option.ite_none_right_eq_some, Option.some.injEq,
        Compiler.Call.ask.injEq] at h
      obtain ⟨rfl, rfl⟩ := h
      rfl

/-! Handles that come with an answer go on with the compiler of the handle that
was asked. -/

theorem compiler_of_mem_deliver {handle child : Handle} {query : Compiled} {first? : Option Json}
    (h : child ∈ Selection.opened (workspace.deliver handle query first?).1) :
    child.compiler = handle.compiler := by
  cases first? with
  | none => simp [deliver, Selection.opened] at h
  | some value =>
      rw [deliver] at h
      split at h
      · simp [Selection.opened] at h
      · rw [List.mem_singleton.mp h]
        rfl

theorem compiler_of_mem_children {handle child : Handle} {values : List Json}
    (h : child ∈ (workspace.children handle values).1) : child.compiler = handle.compiler := by
  induction values generalizing workspace with
  | nil => simp [children] at h
  | cons value rest ih =>
      rcases List.mem_cons.mp h with hfirst | hrest
      · rw [hfirst]
      · exact ih hrest

theorem compiler_of_mem_query {handle child : Handle} {path : String}
    (h : child ∈ Selection.opened (workspace.query handle path).1) :
    child.compiler = handle.compiler := by
  rw [query_eq] at h
  simp only at h
  split at h
  · simp [Selection.opened] at h
  · exact compiler_of_mem_deliver h

theorem compiler_of_mem_queryAll {handle child : Handle} {path : String}
    (h : child ∈ (workspace.queryAll handle path).1.opened) :
    child.compiler = handle.compiler := by
  rw [queryAll_eq] at h
  simp only at h
  split at h
  · simp [Selections.opened] at h
  · rw [deliverAll] at h
    split at h
    · simp [Selections.opened] at h
    · exact compiler_of_mem_children h

/-- A compiler and its calls.  A compiler that has been made for a context may
be used in any way, by factories, by handles and by the handles that come with
their answers.  Whatever asks it for a text gets what the text compiles to
without a cache.  Two uses get one and the same stored selector exactly when
they ask for the same text and the compiler is not cleared between them.  Since
it was last cleared, it has missed every text once, has an entry for each, and
has counted every question, also those that select nothing by themselves. -/
theorem compiler_tells_its_calls (workspace : Workspace) (context : Context) (caching : Bool)
    (uses : List Use) :
    let made := workspace.factory context caching
    let number := made.1.compiler
    let now := made.2.after uses
    let cache := (now.compiler number).cache
    let log := Compiler.asked (calls number uses)
    (∀ (use : Use) (source : String), use.call? number = some (.ask source) →
      ∃ found, use.stored? now = some found ∧ found.query.source = source ∧
        found.query = Compiled.compile context.expander source) ∧
    (∀ (first second : Use) (source other : String), first.call? number = some (.ask source) →
      second.call? number = some (.ask other) → ∀ (between : List Use) (found again : Stored),
        first.stored? now = some found →
        second.stored? ((now.perform first).after between) = some again →
        (found.serial = again.serial ↔ source = other ∧ .clear number ∉ between)) ∧
    cache.tally.misses = cache.size ∧ cache.size = log.dedup.length ∧
    cache.tally.hits + cache.tally.misses = log.length ∧
    ∀ handle path child,
      (child ∈ Selection.opened (now.query handle path).1 ∨
        child ∈ (now.queryAll handle path).1.opened) → child.compiler = handle.compiler := by
  intro made number now cache log
  have hlt : number < made.2.compilers.size := by
    show workspace.compilers.size < (workspace.factory context caching).2.compilers.size
    rw [size_factory]
    exact Nat.lt_succ_self _
  have hmade : made.2.compiler number = Compiler.ofContext context := by
    show (workspace.factory context caching).2.compiler workspace.compilers.size = _
    rw [compiler_factory, if_pos rfl]
  have hnow : now.compiler number = (Compiler.ofContext context).after (calls number uses) := by
    rw [← hmade]
    exact compiler_after hlt uses
  have hltNow : number < now.compilers.size :=
    Nat.lt_of_lt_of_le hlt (size_le_after made.2 uses)
  have hfaithful : (now.compiler number).Faithful := by
    rw [hnow]
    exact (Compiler.faithful_ofContext context).after (calls number uses)
  have hcounted : (now.compiler number).Counted log := by
    rw [hnow]
    exact (Compiler.counted_ofContext context).after (calls number uses)
  have hnumbered : (now.compiler number).Numbered 0 := by
    rw [hnow]
    exact (Compiler.numbered_ofContext context).after (calls number uses)
  have hexpander : (now.compiler number).expander = context.expander := by
    rw [hnow, Compiler.expander_after]
    rfl
  refine ⟨?_, ?_, hcounted.misses, hcounted.size_eq, hcounted.total, ?_⟩
  · intro use source hcall
    have hquery := hfaithful.query_compile source
    rw [hexpander] at hquery
    exact ⟨_, Use.stored?_of_call? hcall now, by rw [hquery]; rfl, hquery⟩
  · intro first second source other hfirst hsecond between found again hfound hagain
    have hthen : ((now.perform first).after between).compiler number =
        ((now.compiler number).compile source).2.after (calls number between) := by
      have hafter := compiler_after hltNow (first :: between)
      rw [calls, List.filterMap_cons_some hfirst] at hafter
      exact hafter
    rw [Use.stored?_of_call? hfirst, Option.some.injEq] at hfound
    rw [Use.stored?_of_call? hsecond, hthen, Option.some.injEq] at hagain
    rw [← hfound, ← hagain, hnumbered.serial_eq_iff, mem_calls_clear_iff]
  · intro handle path child hchild
    rcases hchild with hquery | hqueryAll
    · exact compiler_of_mem_query hquery
    · exact compiler_of_mem_queryAll hqueryAll

/-- A text is compiled and asked for again by a handle, behind a question that
selects nothing; then the compiler is cleared. -/
theorem compiler_tells_its_calls_vacuousBetween :
    let made := Workspace.empty.factory .empty true
    let handle : Handle := { document := .null, compiler := 0, lineage := 0 }
    let first : Use := .compile 0 "a"
    let second : Use := .query handle "a"
    let between : List Use := [.queryAll handle ">"]
    (∃ found again, first.stored? made.2 = some found ∧
      second.stored? ((made.2.perform first).after between) = some again ∧
      found.query = Compiled.compile Context.empty.expander "a" ∧
      found.serial = again.serial) ∧
    (∃ found again, first.stored? made.2 = some found ∧
      second.stored? ((made.2.perform first).after [.clear 0]) = some again ∧
      found.serial ≠ again.serial) := by
  intro made handle first second between
  obtain ⟨hcompiles, hsame, -⟩ := compiler_tells_its_calls .empty .empty true []
  have hfirst : first.call? 0 = some (.ask "a") := rfl
  have hsecond : second.call? 0 = some (.ask "a") := rfl
  obtain ⟨found, hfound, -, hquery⟩ := hcompiles first "a" hfirst
  constructor
  · have hagain := Use.stored?_of_call? hsecond ((made.2.perform first).after between)
    have hserial := hsame first second "a" "a" hfirst hsecond between found _ hfound hagain
    exact ⟨found, _, hfound, hagain, hquery, hserial.mpr ⟨rfl, by simp [between]⟩⟩
  · have hagain := Use.stored?_of_call? hsecond ((made.2.perform first).after [.clear 0])
    have hserial := hsame first second "a" "a" hfirst hsecond [.clear 0] found _ hfound hagain
    exact ⟨found, _, hfound, hagain, fun heq => (hserial.mp heq).2 List.mem_cons_self⟩

end Workspace

end LinkedPath
