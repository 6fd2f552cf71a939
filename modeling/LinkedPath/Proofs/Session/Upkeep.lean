import LinkedPath.Proofs.Match.Resolution
import LinkedPath.Proofs.Session.Outline

/-!
# Caches in good order

Two facts make the caches of a workspace harmless.  Every selector that a
compiler has stored is what its text compiles to (`Workspace.Faithful`).  And
handles of one lineage are open on one document, so the traces that a lineage
keeps are those of every handle that shares it (`Workspace.Serves`).  Every
operation keeps both facts, and a question is answered as if nothing had been
stored.
-/

namespace LinkedPath

namespace Compiler

/-- Every stored selector is what its text compiles to. -/
def Faithful (compiler : Compiler) : Prop :=
  ∀ text found, compiler.cache.entries.lookup text = some found →
    found.query = Compiled.compile compiler.expander text

theorem faithful_ofContext (context : Context) : (ofContext context).Faithful := by
  intro text found hfound
  contradiction

theorem faithful_default : (default : Compiler).Faithful := by
  intro text found hfound
  contradiction

variable {compiler : Compiler}

/-- A text is found with its entry, or it is compiled and gets one with the next
serial number. -/
theorem compile_cases (compiler : Compiler) (source : String) :
    (∃ found, compiler.cache.entries.lookup source = some found ∧
      compiler.compile source =
        (found,
          { compiler with
            cache :=
              { compiler.cache with
                tally :=
                  { hits := compiler.cache.tally.hits + 1
                    misses := compiler.cache.tally.misses } } })) ∨
    (∃ found, compiler.cache.entries.lookup source = none ∧
      found.serial = compiler.cache.stored ∧
      found.query = Compiled.compile compiler.expander source ∧
      compiler.compile source =
        (found,
          { compiler with
            cache :=
              { entries := Keyed.put source found compiler.cache.entries
                tally :=
                  { hits := compiler.cache.tally.hits
                    misses := compiler.cache.tally.misses + 1 }
                stored := compiler.cache.stored + 1 } })) := by
  cases hfound : compiler.cache.entries.lookup source with
  | some found =>
      exact Or.inl ⟨found, rfl, by simp [compile, QueryCache.get?, hfound]⟩
  | none =>
      refine Or.inr ⟨{ serial := compiler.cache.stored
                       query := Compiled.compile compiler.expander source }, rfl, rfl, rfl, ?_⟩
      simp [compile, QueryCache.get?, QueryCache.insert, hfound]

theorem Faithful.query_compile (h : compiler.Faithful) (source : String) :
    (compiler.compile source).1.query = Compiled.compile compiler.expander source := by
  obtain ⟨found, hfound, hcompile⟩ | ⟨found, -, -, hquery, hcompile⟩ :=
    compile_cases compiler source
  · rw [hcompile]
    exact h source found hfound
  · rw [hcompile]
    exact hquery

theorem Faithful.compile (h : compiler.Faithful) (source : String) :
    (compiler.compile source).2.Faithful := by
  obtain ⟨found, -, hcompile⟩ | ⟨new, -, -, hquery, hcompile⟩ := compile_cases compiler source
  · rw [hcompile]
    exact h
  · -- The text itself has the new selector, any other text what it had before.
    rw [hcompile]
    intro text found hfound
    rw [Keyed.lookup_put] at hfound
    split at hfound
    · rename_i htext
      cases hfound
      rw [htext]
      exact hquery
    · exact h text found hfound

end Compiler

/-- The handles that come with an answer. -/
def Selection.opened : Option Selection → List Handle
  | some (node handle) => [handle]
  | _ => []

def Selections.opened : Selections → List Handle
  | nodes handles => handles
  | values _ => []

namespace Workspace

/-- All compilers have stored nothing but what they would compile again. -/
def Faithful (workspace : Workspace) : Prop :=
  ∀ number, (workspace.compiler number).Faithful

/-- The compilers stay where they are, with the names they had. -/
def Keeps (before after : Workspace) : Prop :=
  before.compilers.size ≤ after.compilers.size ∧
    ∀ number < before.compilers.size,
      (after.compiler number).expander = (before.compiler number).expander

/-- Handles on well-formed documents that a workspace has room for.  Handles of
one lineage are open on one document, and the traces that a lineage keeps are
those of its document. -/
structure Serves (workspace : Workspace) (handles : List Handle) : Prop where
  compiler_lt : ∀ handle ∈ handles, handle.compiler < workspace.compilers.size
  lineage_lt : ∀ handle ∈ handles, handle.lineage < workspace.lineages.size
  wellFormed : ∀ handle ∈ handles, handle.document.WellFormed
  shared : ∀ handle ∈ handles, ∀ other ∈ handles, handle.lineage = other.lineage →
    handle.document = other.document
  kept : ∀ handle ∈ handles, ∀ kept, (workspace.lineage handle.lineage).traces? = some kept →
    kept = traces handle.document

variable {workspace : Workspace} {handles : List Handle} {handle : Handle}

theorem Keeps.of_compilers_eq {before after : Workspace} (h : after.compilers = before.compilers) :
    before.Keeps after := by
  refine ⟨Nat.le_of_eq (congrArg Array.size h.symm), ?_⟩
  intro number _
  rw [compiler, compiler, h]

theorem Keeps.trans {first second third : Workspace} (h : first.Keeps second)
    (h' : second.Keeps third) : first.Keeps third := by
  refine ⟨Nat.le_trans h.1 h'.1, ?_⟩
  intro number hlt
  rw [h'.2 number (Nat.lt_of_lt_of_le hlt h.1), h.2 number hlt]

theorem Faithful.of_compilers_eq {after : Workspace} (h : workspace.Faithful)
    (heq : after.compilers = workspace.compilers) : after.Faithful := by
  intro number
  rw [compiler, heq]
  exact h number

theorem Serves.mono {fewer : List Handle} (h : workspace.Serves handles)
    (hsubset : ∀ handle ∈ fewer, handle ∈ handles) : workspace.Serves fewer where
  compiler_lt handle hmem := h.compiler_lt handle (hsubset handle hmem)
  lineage_lt handle hmem := h.lineage_lt handle (hsubset handle hmem)
  wellFormed handle hmem := h.wellFormed handle (hsubset handle hmem)
  shared handle hmem other hother := h.shared handle (hsubset handle hmem) other (hsubset other hother)
  kept handle hmem := h.kept handle (hsubset handle hmem)

/-! ## Compiling -/

theorem compiler_compile (workspace : Workspace) (number other : Nat) (source : String) :
    (workspace.compile number source).2.compiler other = workspace.compiler other ∨
      (workspace.compile number source).2.compiler other =
        ((workspace.compiler other).compile source).2 := by
  by_cases hother : number = other
  · subst hother
    by_cases hlt : number < workspace.compilers.size
    · right
      simp [compile, compiler, Array.getD_eq_getD_getElem?, hlt]
    · left
      simp [compile, compiler, Array.getD_eq_getD_getElem?, hlt]
  · left
    simp [compile, compiler, Array.getD_eq_getD_getElem?, hother]

theorem size_compile (workspace : Workspace) (number : Nat) (source : String) :
    (workspace.compile number source).2.compilers.size = workspace.compilers.size := by
  simp [compile]

theorem Faithful.query_compile (h : workspace.Faithful) (number : Nat) (source : String) :
    (workspace.compile number source).1.query =
      Compiled.compile (workspace.compiler number).expander source :=
  (h number).query_compile source

theorem Faithful.compile (h : workspace.Faithful) (number : Nat) (source : String) :
    (workspace.compile number source).2.Faithful := by
  intro other
  -- The other compilers stay the same, and this one gains what it would compile again.
  rcases compiler_compile workspace number other source with hsame | hcompiled
  · rw [hsame]
    exact h other
  · rw [hcompiled]
    exact (h other).compile source

theorem keeps_compile (workspace : Workspace) (number : Nat) (source : String) :
    workspace.Keeps (workspace.compile number source).2 :=
  ⟨Nat.le_of_eq (size_compile workspace number source).symm,
    fun other _ => expander_compile workspace number other source⟩

theorem Serves.compile (h : workspace.Serves handles) (number : Nat) (source : String) :
    (workspace.compile number source).2.Serves handles where
  compiler_lt handle hmem := by
    rw [size_compile]
    exact h.compiler_lt handle hmem
  lineage_lt := h.lineage_lt
  wellFormed := h.wellFormed
  shared := h.shared
  kept := h.kept

/-! ## New factories -/

theorem compiler_factory (workspace : Workspace) (context : Context) (caching : Bool)
    (number : Nat) :
    (workspace.factory context caching).2.compiler number =
      if number = workspace.compilers.size then Compiler.ofContext context
      else workspace.compiler number := by
  by_cases hnew : number = workspace.compilers.size
  · simp [factory, compiler, Array.getD_eq_getD_getElem?, hnew]
  · simp [factory, compiler, Array.getD_eq_getD_getElem?, Array.getElem?_push, hnew]

theorem Faithful.factory (h : workspace.Faithful) (context : Context) (caching : Bool) :
    (workspace.factory context caching).2.Faithful := by
  intro number
  rw [compiler_factory]
  split
  · exact Compiler.faithful_ofContext context
  · exact h number

theorem size_factory (workspace : Workspace) (context : Context) (caching : Bool) :
    (workspace.factory context caching).2.compilers.size = workspace.compilers.size + 1 :=
  Array.size_push ..

theorem keeps_factory (workspace : Workspace) (context : Context) (caching : Bool) :
    workspace.Keeps (workspace.factory context caching).2 := by
  rw [Keeps, size_factory]
  refine ⟨Nat.le_succ _, ?_⟩
  intro number hlt
  rw [compiler_factory, if_neg (Nat.ne_of_lt hlt)]

theorem Serves.factory (h : workspace.Serves handles) (context : Context) (caching : Bool) :
    (workspace.factory context caching).2.Serves handles where
  compiler_lt handle hmem := by
    rw [size_factory]
    exact Nat.lt_succ_of_lt (h.compiler_lt handle hmem)
  lineage_lt := h.lineage_lt
  wellFormed := h.wellFormed
  shared := h.shared
  kept := h.kept

/-! ## Lineages -/

theorem lineage_set {number : Nat} (hlt : number < workspace.lineages.size) (lineage : Lineage)
    (other : Nat) :
    ({ workspace with
        lineages := workspace.lineages.setIfInBounds number lineage } : Workspace).lineage other =
      if other = number then lineage else workspace.lineage other := by
  by_cases hother : other = number
  · subst hother
    simp [Workspace.lineage, Array.getD_eq_getD_getElem?, hlt]
  · have hne : number ≠ other := fun heq => hother heq.symm
    simp [Workspace.lineage, Array.getD_eq_getD_getElem?, hother, hne]

/-- A lineage may be set to one that keeps nothing or the traces of its
document. -/
theorem Serves.set (h : workspace.Serves handles) (hmem : handle ∈ handles) {lineage : Lineage}
    (hlineage : ∀ kept, lineage.traces? = some kept → kept = traces handle.document) :
    ({ workspace with
        lineages := workspace.lineages.setIfInBounds handle.lineage lineage } : Workspace).Serves
      handles where
  compiler_lt := h.compiler_lt
  lineage_lt other hother := by
    rw [Array.size_setIfInBounds]
    exact h.lineage_lt other hother
  wellFormed := h.wellFormed
  shared := h.shared
  kept other hother kept hkept := by
    rw [lineage_set (h.lineage_lt handle hmem)] at hkept
    by_cases hsame : other.lineage = handle.lineage
    · -- The other handle is open on the same document.
      rw [if_pos hsame] at hkept
      rw [h.shared other hother handle hmem hsame]
      exact hlineage kept hkept
    · rw [if_neg hsame] at hkept
      exact h.kept other hother kept hkept

theorem Serves.setCaching (h : workspace.Serves handles) (hmem : handle ∈ handles)
    (enabled : Bool) : (workspace.setCaching handle enabled).Serves handles := by
  refine h.set hmem ?_
  intro kept hkept
  cases enabled with
  | true => exact h.kept handle hmem kept hkept
  | false => simp at hkept

theorem Serves.keptTraces? (h : workspace.Serves handles) (hmem : handle ∈ handles) :
    (workspace.keptTraces? handle).2.Serves handles := by
  unfold Workspace.keptTraces?
  simp only
  split
  · split
    · exact h
    · -- What is stored now has just been listed.
      refine h.set hmem ?_
      intro kept hkept
      exact (Option.some.inj hkept).symm
  · exact h

theorem compilers_keptTraces? (workspace : Workspace) (handle : Handle) :
    (workspace.keptTraces? handle).2.compilers = workspace.compilers := by
  unfold Workspace.keptTraces?
  simp only
  split
  · split <;> rfl
  · rfl

/-- Kept traces are those of the document. -/
theorem Serves.eq_of_keptTraces? (h : workspace.Serves handles) (hmem : handle ∈ handles)
    {kept : List Trace} (hkept : (workspace.keptTraces? handle).1 = some kept) :
    kept = traces handle.document := by
  unfold Workspace.keptTraces? at hkept
  simp only at hkept
  split at hkept
  · split at hkept
    · rename_i stored hstored
      obtain rfl : stored = kept := Option.some.inj hkept
      exact h.kept handle hmem stored hstored
    · exact (Option.some.inj hkept).symm
  · contradiction

/-! ## New handles -/

theorem Serves.newHandle (h : workspace.Serves handles) {document : Json}
    (hwf : document.WellFormed) {compiler : Nat} (hlt : compiler < workspace.compilers.size)
    (caching : Bool) :
    (workspace.newHandle document compiler caching).2.Serves
      ((workspace.newHandle document compiler caching).1 :: handles) := by
  have hsize : (workspace.newHandle document compiler caching).2.lineages.size =
      workspace.lineages.size + 1 := Array.size_push ..
  constructor
  · exact List.forall_mem_cons.mpr ⟨hlt, h.compiler_lt⟩
  · rw [hsize]
    refine List.forall_mem_cons.mpr ⟨Nat.lt_succ_self _, ?_⟩
    exact fun other hold => Nat.lt_succ_of_lt (h.lineage_lt other hold)
  · exact List.forall_mem_cons.mpr ⟨hwf, h.wellFormed⟩
  · -- No older handle has the number of the new lineage.
    have hfresh : ∀ other ∈ handles, other.lineage ≠ workspace.lineages.size :=
      fun other hold => Nat.ne_of_lt (h.lineage_lt other hold)
    intro first hfirst second hsecond hsame
    rcases List.mem_cons.mp hfirst with rfl | hfirst
    · rcases List.mem_cons.mp hsecond with rfl | hsecond
      · rfl
      · exact absurd hsame.symm (hfresh second hsecond)
    · rcases List.mem_cons.mp hsecond with rfl | hsecond
      · exact absurd hsame (hfresh first hfirst)
      · exact h.shared first hfirst second hsecond hsame
  · intro other hother kept hkept
    rcases List.mem_cons.mp hother with rfl | hold
    · rw [lineage_newHandle] at hkept
      contradiction
    · rw [lineage_newHandle_of_lt _ _ _ _ (h.lineage_lt other hold)] at hkept
      exact h.kept other hold kept hkept

theorem Serves.child (h : workspace.Serves handles) (hmem : handle ∈ handles) {value : Json}
    (hwf : value.WellFormed) :
    (workspace.child handle value).2.Serves ((workspace.child handle value).1 :: handles) :=
  h.newHandle hwf (h.compiler_lt handle hmem) _

/-- Handles on selected values: they are open on these values, in order, and
share the compiler of the handle that was asked. -/
theorem Serves.children (h : workspace.Serves handles) (hmem : handle ∈ handles)
    {values : List Json} (hwf : ∀ value ∈ values, value.WellFormed) :
    (workspace.children handle values).2.Serves
        ((workspace.children handle values).1 ++ handles) ∧
      (workspace.children handle values).2.compilers = workspace.compilers ∧
      (workspace.children handle values).1.map Handle.document = values ∧
      ∀ new ∈ (workspace.children handle values).1, new.compiler = handle.compiler := by
  -- Every handle that is opened counts as an older one for the next.
  induction values generalizing workspace handles with
  | nil => exact ⟨h, rfl, rfl, by simp [Workspace.children]⟩
  | cons value rest ih =>
      obtain ⟨hvalue, hrest⟩ := List.forall_mem_cons.mp hwf
      have hchild := h.child hmem hvalue
      obtain ⟨hserves, hcompilers, hdocuments, hnew⟩ :=
        ih hchild (List.mem_cons_of_mem _ hmem) hrest
      refine ⟨hserves.mono ?_, hcompilers, congrArg (value :: ·) hdocuments,
        List.forall_mem_cons.mpr ⟨rfl, hnew⟩⟩
      · intro other hother
        rcases List.mem_append.mp hother with hopened | hold
        · rcases List.mem_cons.mp hopened with rfl | hlater
          · exact List.mem_append_right _ List.mem_cons_self
          · exact List.mem_append_left _ hlater
        · exact List.mem_append_right _ (List.mem_cons_of_mem _ hold)

/-! ## Questions -/

/-- The first selected value, among kept traces or on a walk. -/
def firstAmong? (expander : Expander) (document : Json) (query : Compiled) :
    Option (List Trace) → Option Json
  | some kept => query.firstOf? expander document kept
  | none => query.firstOnWalk? expander document

/-- Hand out a value, raw or as a handle. -/
def deliver (workspace : Workspace) (handle : Handle) (query : Compiled) :
    Option Json → Option Selection × Workspace
  | none => (none, workspace)
  | some value =>
      if query.isFinal value.isNull then
        (some (.value value), workspace)
      else
        let (node, workspace) := workspace.child handle value
        (some (.node node), workspace)

/-- Hand out values, raw or as handles. -/
def deliverAll (workspace : Workspace) (handle : Handle) (query : Compiled) (values : List Json) :
    Selections × Workspace :=
  if query.isFinal values.isEmpty then
    (.values values, workspace)
  else
    let (nodes, workspace) := workspace.children handle values
    (.nodes nodes, workspace)

/-- The question for the first value in phases: compile, list, search,
deliver. -/
theorem query_eq (workspace : Workspace) (handle : Handle) (path : String) :
    workspace.query handle path =
      let (found, compiled) := workspace.compile handle.compiler path
      if found.query.isVacuous then
        (none, compiled)
      else
        let (kept?, listed) := compiled.keptTraces? handle
        listed.deliver handle found.query
          (firstAmong? (compiled.compiler handle.compiler).expander handle.document found.query
            kept?) := by
  unfold query
  simp only
  split
  · rfl
  · cases (Workspace.keptTraces? _ handle).1 with
    | none => rfl
    | some kept => rfl

/-- The question for all values in phases. -/
theorem queryAll_eq (workspace : Workspace) (handle : Handle) (path : String) :
    workspace.queryAll handle path =
      let (found, compiled) := workspace.compile handle.compiler path
      if found.query.isVacuous then
        (.values [], compiled)
      else
        let (kept?, listed) := compiled.keptTraces? handle
        listed.deliverAll handle found.query
          (found.query.allOf (compiled.compiler handle.compiler).expander handle.document
            (kept?.getD (traces handle.document))) := by
  unfold queryAll
  simp only
  split
  · rfl
  · cases (Workspace.keptTraces? _ handle).1 with
    | none => rfl
    | some kept => rfl

/-- A question leaves a workspace in good order, with room for the handles that
it has opened. -/
structure Upkeep (before : Workspace) (handles : List Handle) (asked : Handle)
    (opened : List Handle) (after : Workspace) : Prop where
  faithful : after.Faithful
  serves : after.Serves (opened ++ handles)
  keeps : before.Keeps after
  compiler : ∀ new ∈ opened, new.compiler = asked.compiler

variable {before : Workspace}

theorem Upkeep.keptTraces? (h : before.Upkeep handles handle [] workspace)
    (hmem : handle ∈ handles) :
    before.Upkeep handles handle [] (workspace.keptTraces? handle).2 where
  faithful := h.faithful.of_compilers_eq (compilers_keptTraces? workspace handle)
  serves := Serves.keptTraces? h.serves hmem
  keeps := h.keeps.trans (Keeps.of_compilers_eq (compilers_keptTraces? workspace handle))
  compiler := h.compiler

/-- Before a question is answered its selector is at hand, and nothing else has
changed. -/
theorem Upkeep.exists_compile (hfaithful : workspace.Faithful)
    (hserves : workspace.Serves handles) (handle : Handle) (path : String) :
    ∃ found compiled, workspace.compile handle.compiler path = (found, compiled) ∧
      found.query = Compiled.compile (workspace.compiler handle.compiler).expander path ∧
      (compiled.compiler handle.compiler).expander =
        (workspace.compiler handle.compiler).expander ∧
      workspace.Upkeep handles handle [] compiled := by
  refine ⟨_, _, rfl, hfaithful.query_compile handle.compiler path,
    expander_compile workspace handle.compiler handle.compiler path, ?_⟩
  exact ⟨hfaithful.compile handle.compiler path, hserves.compile handle.compiler path,
    keeps_compile workspace handle.compiler path, by simp⟩

theorem Upkeep.deliver (h : before.Upkeep handles handle [] workspace) (hmem : handle ∈ handles)
    (query : Compiled) {first? : Option Json}
    (hwf : ∀ value, first? = some value → value.WellFormed) :
    (workspace.deliver handle query first?).1.map Selection.shown =
        first?.map (fun value => { raw := query.isFinal value.isNull, json := value }) ∧
      before.Upkeep handles handle (Selection.opened (workspace.deliver handle query first?).1)
        (workspace.deliver handle query first?).2 := by
  cases first? with
  | none => exact ⟨rfl, h⟩
  | some value =>
      rw [Workspace.deliver]
      by_cases hfinal : query.isFinal value.isNull = true
      · rw [if_pos hfinal]
        refine ⟨?_, h⟩
        rw [Option.map_some, Option.map_some, hfinal]
        rfl
      · -- The value gets a handle of its own, with a new lineage.
        rw [if_neg hfinal]
        have hserves : workspace.Serves handles := h.serves
        refine ⟨?_, ?_, hserves.child hmem (hwf value rfl), h.keeps, ?_⟩
        · rw [Bool.not_eq_true] at hfinal
          rw [Option.map_some, Option.map_some, hfinal]
          rfl
        · exact h.faithful
        · intro new hnew
          rw [List.mem_singleton.mp hnew]
          rfl

theorem Upkeep.deliverAll (h : before.Upkeep handles handle [] workspace)
    (hmem : handle ∈ handles) (query : Compiled) {values : List Json}
    (hwf : ∀ value ∈ values, value.WellFormed) :
    (workspace.deliverAll handle query values).1.shown =
        { raw := query.isFinal values.isEmpty, items := values } ∧
      before.Upkeep handles handle (workspace.deliverAll handle query values).1.opened
        (workspace.deliverAll handle query values).2 := by
  rw [Workspace.deliverAll]
  by_cases hfinal : query.isFinal values.isEmpty = true
  · rw [if_pos hfinal, hfinal]
    exact ⟨rfl, h⟩
  · rw [if_neg hfinal]
    rw [Bool.not_eq_true] at hfinal
    have hserves : workspace.Serves handles := h.serves
    obtain ⟨hserves, hcompilers, hdocuments, hcompiler⟩ := hserves.children hmem hwf
    refine ⟨?_, h.faithful.of_compilers_eq hcompilers, hserves,
      h.keeps.trans (Keeps.of_compilers_eq hcompilers), hcompiler⟩
    rw [hfinal, Selections.shown, hdocuments]

/-- The first value is that of the stateless evaluation. -/
theorem Serves.query (hfaithful : workspace.Faithful) (hserves : workspace.Serves handles)
    (hmem : handle ∈ handles) (path : String) :
    (workspace.query handle path).1.map Selection.shown = (workspace.view handle).first? path ∧
      workspace.Upkeep handles handle (Selection.opened (workspace.query handle path).1)
        (workspace.query handle path).2 := by
  have hwf := hserves.wellFormed handle hmem
  obtain ⟨found, compiled, hcompile, hquery, hnames, hcompiled⟩ :=
    Upkeep.exists_compile hfaithful hserves handle path
  rw [query_eq, hcompile, View.first?, view]
  simp only
  rw [hnames, ← hquery]
  by_cases hvacuous : found.query.isVacuous = true
  · rw [if_pos hvacuous, Compiled.matching_of_isVacuous hvacuous]
    exact ⟨rfl, hcompiled⟩
  · rw [if_neg hvacuous]
    have hlisted := hcompiled.keptTraces? hmem
    have hserves : compiled.Serves handles := hcompiled.serves
    -- Kept or not, the traces are those of the document.
    have hfirst : firstAmong? (workspace.compiler handle.compiler).expander handle.document
        found.query (compiled.keptTraces? handle).1 =
          (found.query.matching (workspace.compiler handle.compiler).expander handle.document
            (traces handle.document)).head?.bind (found.query.resolve? handle.document) := by
      cases hkept : (compiled.keptTraces? handle).1 with
      | none => exact Compiled.firstOnWalk?_eq
      | some kept =>
          rw [hserves.eq_of_keptTraces? hmem hkept]
          exact Compiled.firstOf?_traces hwf
    rw [hfirst]
    exact hlisted.deliver hmem found.query fun value => Compiled.wellFormed_of_first hwf

/-- All values are those of the stateless evaluation. -/
theorem Serves.queryAll (hfaithful : workspace.Faithful) (hserves : workspace.Serves handles)
    (hmem : handle ∈ handles) (path : String) :
    (workspace.queryAll handle path).1.shown = (workspace.view handle).all path ∧
      workspace.Upkeep handles handle (workspace.queryAll handle path).1.opened
        (workspace.queryAll handle path).2 := by
  have hwf := hserves.wellFormed handle hmem
  obtain ⟨found, compiled, hcompile, hquery, hnames, hcompiled⟩ :=
    Upkeep.exists_compile hfaithful hserves handle path
  rw [queryAll_eq, hcompile, View.all, view]
  simp only
  rw [hnames, ← hquery]
  by_cases hvacuous : found.query.isVacuous = true
  · rw [if_pos hvacuous, Compiled.allOf, Compiled.matching_of_isVacuous hvacuous]
    exact ⟨rfl, hcompiled⟩
  · rw [if_neg hvacuous]
    have hlisted := hcompiled.keptTraces? hmem
    have hserves : compiled.Serves handles := hcompiled.serves
    have htraces : (compiled.keptTraces? handle).1.getD (traces handle.document) =
        traces handle.document := by
      cases hkept : (compiled.keptTraces? handle).1 with
      | none => rfl
      | some kept => exact hserves.eq_of_keptTraces? hmem hkept
    rw [htraces]
    exact hlisted.deliverAll hmem found.query fun value => Compiled.wellFormed_of_mem_allOf hwf

end Workspace

end LinkedPath
