import LinkedPath.Proofs.Session.Upkeep

/-!
# What happens to lineages

A handle shows two flags: whether it keeps traces, and whether it has some.
They are those of its lineage.  Switching sets the flags of one lineage, a
question may store the traces of one lineage, and new handles come with new
lineages behind all others (`Adds`).  The main statements are
`flags_setCaching`, `flags_listed` and `adds_query` with `adds_queryAll`.  None
of this stores traces in a lineage that does not keep them (`Tidy`).
-/

namespace LinkedPath

namespace Workspace

/-- Whether a handle keeps traces, and whether it has some. -/
def flags (workspace : Workspace) (handle : Handle) : Bool × Bool :=
  (workspace.isCaching handle, workspace.hasTraces handle)

variable {workspace : Workspace} {handle other : Handle}

theorem isCaching_congr (h : handle.lineage = other.lineage) :
    workspace.isCaching handle = workspace.isCaching other := by
  rw [isCaching, isCaching, h]

theorem hasTraces_congr (h : handle.lineage = other.lineage) :
    workspace.hasTraces handle = workspace.hasTraces other := by
  rw [hasTraces, hasTraces, h]

theorem flags_congr (h : handle.lineage = other.lineage) :
    workspace.flags handle = workspace.flags other := by
  rw [flags, flags, isCaching_congr h, hasTraces_congr h]

theorem flags_of_lineage_eq {before after : Workspace}
    (h : after.lineage handle.lineage = before.lineage handle.lineage) :
    after.flags handle = before.flags handle := by
  rw [flags, flags, isCaching, isCaching, hasTraces, hasTraces, h]

theorem flags_of_lineages_eq {before after : Workspace} (h : after.lineages = before.lineages)
    (handle : Handle) : after.flags handle = before.flags handle := by
  apply flags_of_lineage_eq
  rw [lineage, lineage, h]

theorem flags_setCaching (hlt : handle.lineage < workspace.lineages.size) (enabled : Bool)
    (other : Handle) :
    (workspace.setCaching handle enabled).flags other =
      if other.lineage = handle.lineage then (enabled, workspace.hasTraces handle && enabled)
      else workspace.flags other := by
  have hset := lineage_setCaching workspace handle enabled other.lineage hlt
  split
  · rename_i hsame
    rw [if_pos hsame] at hset
    rw [flags, isCaching, hasTraces, hset]
    cases enabled <;> simp [hasTraces]
  · rename_i hother
    rw [if_neg hother] at hset
    exact flags_of_lineage_eq hset

theorem size_setCaching (workspace : Workspace) (handle : Handle) (enabled : Bool) :
    (workspace.setCaching handle enabled).lineages.size = workspace.lineages.size := by
  simp [setCaching]

/-! ## Storing traces -/

/-- A lineage that keeps traces has some when they have been asked for. -/
theorem flags_keptTraces? (hlt : handle.lineage < workspace.lineages.size) (other : Handle) :
    (workspace.keptTraces? handle).2.flags other =
      if other.lineage = handle.lineage then
        (workspace.isCaching handle, workspace.hasTraces handle || workspace.isCaching handle)
      else workspace.flags other := by
  -- The flags that the handle has already are no change.
  have hsame : (workspace.hasTraces handle || workspace.isCaching handle) =
      workspace.hasTraces handle → workspace.flags other =
        if other.lineage = handle.lineage then
          (workspace.isCaching handle, workspace.hasTraces handle || workspace.isCaching handle)
        else workspace.flags other := by
    intro hstored
    split
    · rename_i hlineage
      rw [hstored, flags_congr hlineage, flags]
    · rfl
  unfold keptTraces?
  simp only
  split
  · rename_i hcaching
    have hkeeps : workspace.isCaching handle = true := hcaching
    split
    · rename_i kept hkept
      apply hsame
      simp [hasTraces, hkept]
    · rw [flags, isCaching, hasTraces, lineage_set hlt]
      split
      · simp [hkeeps, hcaching]
      · rfl
  · rename_i hcaching
    apply hsame
    simp [isCaching, hcaching]

theorem size_keptTraces? (workspace : Workspace) (handle : Handle) :
    (workspace.keptTraces? handle).2.lineages.size = workspace.lineages.size := by
  unfold keptTraces?
  simp only
  split
  · split <;> simp
  · rfl

/-! ## New lineages -/

/-- Handles have been opened, each with a lineage of its own behind all others.
The new lineages have no traces, and the others are as before. -/
structure Adds (before after : Workspace) (caching : Bool) (opened : List Handle) : Prop where
  size : after.lineages.size = before.lineages.size + opened.length
  number : ∀ place child, opened[place]? = some child →
    child.lineage = before.lineages.size + place
  new : ∀ child ∈ opened, after.flags child = (caching, false)
  old : ∀ handle, handle.lineage < before.lineages.size →
    after.flags handle = before.flags handle

variable {before middle after : Workspace} {caching : Bool} {opened : List Handle}

theorem adds_nil (workspace : Workspace) (caching : Bool) : workspace.Adds workspace caching [] where
  size := rfl
  number place child hchild := by simp at hchild
  new child hchild := by simp at hchild
  old _ _ := rfl

theorem adds_newHandle (workspace : Workspace) (document : Json) (compiler : Nat)
    (caching : Bool) :
    workspace.Adds (workspace.newHandle document compiler caching).2 caching
      [(workspace.newHandle document compiler caching).1] where
  size := Array.size_push ..
  number place child hchild := by
    obtain ⟨hplace, hchild⟩ := List.getElem?_eq_some_iff.mp hchild
    obtain rfl : place = 0 := by simpa using hplace
    rw [← hchild]
    rfl
  new child hchild := by
    rw [List.mem_singleton.mp hchild, flags, isCaching, hasTraces, lineage_newHandle]
    rfl
  old handle hlt := flags_of_lineage_eq (lineage_newHandle_of_lt _ _ _ _ hlt)

theorem Adds.cons {first : Handle} (h : before.Adds middle caching [first])
    (h' : middle.Adds after caching opened) : before.Adds after caching (first :: opened) := by
  have hsize : middle.lineages.size = before.lineages.size + 1 := h.size
  have hfirst : first.lineage = before.lineages.size := h.number 0 first rfl
  refine ⟨?_, ?_, ?_, ?_⟩
  · rw [h'.size, hsize, List.length_cons]
    omega
  · intro place child hchild
    cases place with
    | zero =>
        obtain rfl : first = child := by simpa using hchild
        exact hfirst
    | succ place =>
        have hnumber := h'.number place child (by simpa using hchild)
        omega
  · intro child hchild
    rcases List.mem_cons.mp hchild with rfl | hrest
    · rw [h'.old _ (by omega)]
      exact h.new child List.mem_cons_self
    · exact h'.new child hrest
  · intro handle hlt
    rw [h'.old handle (by omega), h.old handle hlt]

theorem adds_children (hlt : handle.lineage < workspace.lineages.size) (values : List Json) :
    workspace.Adds (workspace.children handle values).2 (workspace.isCaching handle)
      (workspace.children handle values).1 := by
  induction values generalizing workspace with
  | nil => exact adds_nil workspace _
  | cons value rest ih =>
      have hchild : workspace.Adds (workspace.child handle value).2 (workspace.isCaching handle)
          [(workspace.child handle value).1] := adds_newHandle workspace value _ _
      have hsize := hchild.size
      -- The handle that is asked has an older lineage, so its flag stays.
      have hcaching : (workspace.child handle value).2.isCaching handle =
          workspace.isCaching handle := congrArg Prod.fst (hchild.old handle hlt)
      have hrest : (workspace.child handle value).2.Adds _
          ((workspace.child handle value).2.isCaching handle) _ := ih (by omega)
      rw [hcaching] at hrest
      exact hchild.cons hrest

theorem adds_deliver (workspace : Workspace) (handle : Handle) (query : Compiled)
    (first? : Option Json) :
    workspace.Adds (workspace.deliver handle query first?).2 (workspace.isCaching handle)
      (Selection.opened (workspace.deliver handle query first?).1) := by
  cases first? with
  | none => exact adds_nil workspace _
  | some value =>
      rw [deliver]
      split
      · exact adds_nil workspace _
      · exact adds_newHandle workspace value handle.compiler _

theorem adds_deliverAll (hlt : handle.lineage < workspace.lineages.size) (query : Compiled)
    (values : List Json) :
    workspace.Adds (workspace.deliverAll handle query values).2 (workspace.isCaching handle)
      (workspace.deliverAll handle query values).1.opened := by
  rw [deliverAll]
  split
  · exact adds_nil workspace _
  · exact adds_children hlt values

/-! ## Questions -/

/-- The workspace in which an answer is searched for: the traces have been
listed and stored where they are kept, unless the selector is vacuous. -/
def listed (workspace : Workspace) (handle : Handle) (path : String) : Workspace :=
  let (found, compiled) := workspace.compile handle.compiler path
  if found.query.isVacuous then compiled else (compiled.keptTraces? handle).2

theorem size_listed (workspace : Workspace) (handle : Handle) (path : String) :
    (workspace.listed handle path).lineages.size = workspace.lineages.size := by
  rw [listed]
  simp only
  split
  · rfl
  · rw [size_keptTraces?]
    rfl

/-- A question that is not vacuous stores the traces of a lineage that keeps
them; a vacuous one changes nothing. -/
theorem flags_listed (hlt : handle.lineage < workspace.lineages.size) (path : String)
    (other : Handle) :
    (workspace.listed handle path).flags other =
      if other.lineage = handle.lineage ∧
          (workspace.compile handle.compiler path).1.query.isVacuous = false then
        (workspace.isCaching handle, workspace.hasTraces handle || workspace.isCaching handle)
      else workspace.flags other := by
  have hcompiled : handle.lineage <
      (workspace.compile handle.compiler path).2.lineages.size := hlt
  rw [listed]
  simp only
  split
  · rename_i hvacuous
    rw [if_neg (by simp [hvacuous])]
    rfl
  · rename_i hvacuous
    rw [Bool.not_eq_true] at hvacuous
    rw [flags_keptTraces? hcompiled]
    simp only [hvacuous, and_true]
    rfl

theorem isCaching_listed (hlt : handle.lineage < workspace.lineages.size) (path : String) :
    (workspace.listed handle path).isCaching handle = workspace.isCaching handle := by
  have hflags := congrArg Prod.fst (flags_listed hlt path handle)
  rw [apply_ite Prod.fst] at hflags
  exact hflags.trans (ite_self _)

/-- When the answer is delivered, nothing happens but that new handles are
opened. -/
theorem adds_query (hlt : handle.lineage < workspace.lineages.size) (path : String) :
    (workspace.listed handle path).Adds (workspace.query handle path).2
      (workspace.isCaching handle) (Selection.opened (workspace.query handle path).1) := by
  rw [← isCaching_listed hlt path, query_eq, listed]
  simp only
  split
  · exact adds_nil _ _
  · exact adds_deliver _ _ _ _

theorem adds_queryAll (hlt : handle.lineage < workspace.lineages.size) (path : String) :
    (workspace.listed handle path).Adds (workspace.queryAll handle path).2
      (workspace.isCaching handle) (workspace.queryAll handle path).1.opened := by
  have hlisted : handle.lineage < (workspace.listed handle path).lineages.size := by
    rw [size_listed]
    exact hlt
  rw [← isCaching_listed hlt path, queryAll_eq]
  rw [listed] at hlisted ⊢
  simp only at hlisted ⊢
  split
  · exact adds_nil _ _
  · rename_i hvacuous
    rw [if_neg hvacuous] at hlisted
    exact adds_deliverAll hlisted _ _

/-! ## Stored traces are kept traces -/

/-- Only lineages that keep traces have some. -/
def Tidy (workspace : Workspace) : Prop :=
  ∀ handle : Handle, handle.lineage < workspace.lineages.size →
    (workspace.flags handle).2 = true → (workspace.flags handle).1 = true

theorem Tidy.of_lineages_eq (h : workspace.Tidy) (heq : after.lineages = workspace.lineages) :
    after.Tidy := by
  intro handle hlt
  rw [heq] at hlt
  rw [flags_of_lineages_eq heq]
  exact h handle hlt

theorem Tidy.setCaching (h : workspace.Tidy) (hlt : handle.lineage < workspace.lineages.size)
    (enabled : Bool) : (workspace.setCaching handle enabled).Tidy := by
  intro other hother
  rw [size_setCaching] at hother
  rw [flags_setCaching hlt]
  split
  · simp
  · exact h other hother

theorem Tidy.listed (h : workspace.Tidy) (hlt : handle.lineage < workspace.lineages.size)
    (path : String) : (workspace.listed handle path).Tidy := by
  intro other hother
  have hstored : workspace.hasTraces handle = true → workspace.isCaching handle = true :=
    h handle hlt
  rw [size_listed] at hother
  rw [flags_listed hlt]
  split
  · simp only [Bool.or_eq_true]
    intro heither
    exact heither.elim hstored id
  · exact h other hother

theorem Adds.tidy (h : before.Adds after caching opened) (hbefore : before.Tidy) :
    after.Tidy := by
  intro handle hlt
  rw [h.size] at hlt
  by_cases hold : handle.lineage < before.lineages.size
  · rw [h.old handle hold]
    exact hbefore handle hold
  · -- The lineage is that of a handle that has been opened.
    obtain ⟨place, hplace⟩ := Nat.exists_eq_add_of_le (Nat.le_of_not_lt hold)
    have hopened : place < opened.length := by omega
    have hchild := List.getElem?_eq_getElem hopened
    rw [flags_congr (hplace.trans (h.number place _ hchild).symm),
      h.new _ (List.mem_of_getElem? hchild)]
    simp

end Workspace

end LinkedPath
