import Mathlib.Logic.Relation
import LinkedPath.Proofs.Match.Embedding
import LinkedPath.Proofs.Query.Records
import LinkedPath.Proofs.Trace.WalkOrder

/-!
# Narrower selectors

A selector that asks for more matches less.  A step asks for more when it gets
one more predicate, or a name where any name would do, and steps ask for more
when one of them does or when a combinator comes between them.  A combinator
pins the step behind it, and a step that fits when it is pinned fits when it is
free (`Fits.of_pinned`); so whatever the narrower steps fit the others fit as
well, at the same positions (`Fits.of_narrowsTo`).  The order in which the
search tries positions, and its table, do not come in here.

A record can also get a predicate when it is a combinator.  The step that it
stands for stays what it was, so records that ask for more stand for steps that
ask for more or for the same (`narrowsTo_of_records`).

A combinator has no effect where the step behind it is pinned without it, as it
is at the start, behind another combinator and for the last step of all
(`fits_insert_child_iff`).
-/

namespace LinkedPath

/-- A list that asks for more in one place. -/
inductive Narrowing {α : Type} (narrowsTo : α → α → Prop) (child : α) : List α → List α → Prop
  /-- The first step asks for more. -/
  | step {step narrower : α} (h : narrowsTo step narrower) (rest : List α) :
      Narrowing narrowsTo child (step :: rest) (narrower :: rest)
  /-- A combinator comes before the first step. -/
  | child (step : α) (rest : List α) :
      Narrowing narrowsTo child (step :: rest) (child :: step :: rest)
  /-- The change is further on. -/
  | cons (step : α) {rest narrower : List α} (h : Narrowing narrowsTo child rest narrower) :
      Narrowing narrowsTo child (step :: rest) (step :: narrower)

theorem Narrowing.ne_nil {α : Type} {narrowsTo : α → α → Prop} {child : α}
    {steps narrower : List α} (h : Narrowing narrowsTo child steps narrower) : steps ≠ [] := by
  cases h <;> exact List.cons_ne_nil _ _

/-- A step that asks for more in one respect.  A combinator tests nothing. -/
inductive Step.NarrowsTo : Step → Step → Prop
  /-- One more predicate, at any place among the others. -/
  | predicate (name? : Option String) (first second : List Predicate) (predicate : Predicate) :
      NarrowsTo (.node { name?, predicates := first ++ second })
        (.node { name?, predicates := first ++ predicate :: second })
  /-- A name where any name would do. -/
  | name (name : String) (predicates : List Predicate) :
      NarrowsTo (.node { name? := none, predicates }) (.node { name? := some name, predicates })

/-- A record that asks for more in one respect. -/
inductive StepRecord.NarrowsTo : StepRecord → StepRecord → Prop
  /-- One more predicate, at any place among the others, in any record. -/
  | predicate (name? : Option String) (directChild : Bool) (first second : List Predicate)
      (predicate : Predicate) :
      NarrowsTo { name?, directChild, predicates := first ++ second }
        { name?, directChild, predicates := first ++ predicate :: second }
  /-- A name where any name would do, in a record that is no combinator. -/
  | name (name : String) (predicates : List Predicate) :
      NarrowsTo { name? := none, directChild := false, predicates }
        { name? := some name, directChild := false, predicates }

variable {test narrower : NodeTest}

/-- The stronger test holds at fewer entries. -/
theorem NodeTest.Holds.of_narrowsTo {expander : Expander} {document : Json} {entry : Entry}
    (h : (Step.node test).NarrowsTo (.node narrower))
    (hholds : narrower.Holds expander document entry) : test.Holds expander document entry := by
  cases h with
  | predicate name? first second predicate =>
      refine ⟨hholds.name, ?_⟩
      intro other hother
      refine hholds.predicates other ?_
      obtain hfirst | hsecond := List.mem_append.mp hother
      · exact List.mem_append_left _ hfirst
      · exact List.mem_append_right _ (List.mem_cons_of_mem _ hsecond)
  | name name predicates => exact ⟨fun _ hname => by contradiction, hholds.predicates⟩

theorem NodeTest.passesAt_of_narrowsTo {expander : Expander} {document : Json} {trace : Trace}
    (h : (Step.node test).NarrowsTo (.node narrower)) {position : Nat}
    (hpasses : narrower.passesAt expander document trace.reverse.toArray position = true) :
    test.passesAt expander document trace.reverse.toArray position = true := by
  obtain ⟨entry, hentry, hholds⟩ := passesAt_iff.mp hpasses
  exact passesAt_iff.mpr ⟨entry, hentry, hholds.of_narrowsTo h⟩

namespace Search

/-- Steps that ask for more in one place. -/
abbrev NarrowsTo : List Step → List Step → Prop := Narrowing Step.NarrowsTo .child

/-- Records that ask for more in one place. -/
abbrev RecordsNarrowTo : List StepRecord → List StepRecord → Prop :=
  Narrowing StepRecord.NarrowsTo .child

variable {passes : NodeTest → Nat → Bool} {steps narrower before after first second : List Step}
  {bookmark : Nat} {pinned : Bool}

/-- What fits at the bookmark itself fits below the bookmark. -/
theorem Fits.of_pinned (h : Fits passes steps bookmark true) (pinned : Bool) :
    Fits passes steps bookmark pinned := by
  cases steps with
  | nil => trivial
  | cons step rest =>
      cases step with
      | child => exact h
      | node test =>
          obtain ⟨position, hlt, hpin, htest, hrest⟩ := h
          exact ⟨position, hlt, fun _ => hpin (Or.inl rfl), htest, hrest⟩

/-- Where steps that ask for more fit, the others fit. -/
theorem Fits.of_narrowsTo
    (hpasses : ∀ {test narrower}, (Step.node test).NarrowsTo (.node narrower) →
      ∀ {position}, passes narrower position = true → passes test position = true)
    (h : NarrowsTo steps narrower) (hfits : Fits passes narrower bookmark pinned) :
    Fits passes steps bookmark pinned := by
  induction h generalizing bookmark pinned with
  | @step step narrower h rest =>
      cases step with
      | child => contradiction
      | node test =>
          cases narrower with
          | child => contradiction
          | node stronger =>
              obtain ⟨position, hlt, hpin, htest, hrest⟩ := hfits
              exact ⟨position, hlt, hpin, hpasses h htest, hrest⟩
  | child step rest => exact Fits.of_pinned hfits pinned
  | @cons step rest narrower h ih =>
      cases step with
      | child => exact ih hfits
      | node test =>
          obtain ⟨position, hlt, hpin, htest, hrest⟩ := hfits
          refine ⟨position, hlt, ?_, htest, ih hrest⟩
          -- The change is behind this step, so it is the last one in neither list.
          rintro (hpinned | hnil)
          · exact hpin (Or.inl hpinned)
          · exact absurd hnil h.ne_nil

/-- Any number of changes, one after the other. -/
theorem Fits.of_narrowsTo_trans
    (hpasses : ∀ {test narrower}, (Step.node test).NarrowsTo (.node narrower) →
      ∀ {position}, passes narrower position = true → passes test position = true)
    (h : Relation.ReflTransGen NarrowsTo steps narrower)
    (hfits : Fits passes narrower bookmark pinned) : Fits passes steps bookmark pinned := by
  induction h with
  | refl => exact hfits
  | tail _ hlast ih => exact ih (hfits.of_narrowsTo hpasses hlast)

/-! ## Records -/

/-- A record that asks for more stands for a step that asks for more, unless it is
a combinator. -/
theorem step_eq_or_narrowsTo {record stronger : StepRecord} (h : record.NarrowsTo stronger) :
    record.step = stronger.step ∨ record.step.NarrowsTo stronger.step := by
  cases h with
  | predicate name? directChild first second predicate =>
      cases directChild with
      | true => exact Or.inl rfl
      | false => exact Or.inr (.predicate name? first second predicate)
  | name name predicates => exact Or.inr (.name name predicates)

/-- Records that ask for more in one place stand for steps that do, or for the
same steps. -/
theorem eq_or_narrowsTo_of_records {records stronger : List StepRecord}
    (h : RecordsNarrowTo records stronger) :
    records.map StepRecord.step = stronger.map StepRecord.step ∨
      NarrowsTo (records.map StepRecord.step) (stronger.map StepRecord.step) := by
  induction h with
  | @step record stronger h rest =>
      obtain hsame | hnarrows := step_eq_or_narrowsTo h
      · exact Or.inl (congrArg (· :: rest.map StepRecord.step) hsame)
      · exact Or.inr (.step hnarrows _)
  | child record rest => exact Or.inr (.child _ _)
  | cons record h ih =>
      obtain hsame | hnarrows := ih
      · exact Or.inl (congrArg (record.step :: ·) hsame)
      · exact Or.inr (.cons _ hnarrows)

theorem narrowsTo_of_records {records stronger : List StepRecord}
    (h : Relation.ReflTransGen RecordsNarrowTo records stronger) :
    Relation.ReflTransGen NarrowsTo (records.map StepRecord.step)
      (stronger.map StepRecord.step) := by
  induction h with
  | refl => exact .refl
  | tail _ hlast ih =>
      obtain hsame | hnarrows := eq_or_narrowsTo_of_records hlast
      · rwa [← hsame]
      · exact ih.tail hnarrows

/-! ## Combinators without effect -/

/-- Steps can be exchanged behind others, if there are some and it makes no
difference to them whether they are pinned. -/
theorem fits_append_congr (hfirst : first ≠ []) (hsecond : second ≠ [])
    (h : ∀ bookmark pinned, Fits passes first bookmark pinned ↔ Fits passes second bookmark pinned) :
    Fits passes (before ++ first) bookmark pinned ↔ Fits passes (before ++ second) bookmark pinned := by
  induction before generalizing bookmark pinned with
  | nil => exact h bookmark pinned
  | cons step rest ih =>
      cases step with
      | child => exact ih
      | node test => simp only [List.cons_append, Fits, List.append_eq_nil_iff, hfirst, hsecond, ih]

/-- The place between two lists of steps is one where the step behind it is
pinned: the start, a place next to a combinator, or that before the last
step. -/
def Pins (before after : List Step) : Prop :=
  before = [] ∨ before.getLast? = some .child ∨ after.head? = some .child ∨ after.length = 1

/-- A combinator at a place that pins has no effect. -/
theorem fits_insert_child_iff (h : Pins before after) :
    Fits passes (before ++ .child :: after) bookmark true ↔
      Fits passes (before ++ after) bookmark true := by
  rcases h with rfl | hbefore | hafter | hlast
  · rfl
  · obtain ⟨front, rfl⟩ := List.getLast?_eq_some_iff.mp hbefore
    rw [List.append_assoc, List.append_assoc]
    exact fits_append_congr (List.cons_ne_nil _ _) (List.cons_ne_nil _ _) fun _ _ => Iff.rfl
  · obtain ⟨rest, rfl⟩ := List.head?_eq_some_iff.mp hafter
    exact fits_append_congr (List.cons_ne_nil _ _) (List.cons_ne_nil _ _) fun _ _ => Iff.rfl
  · obtain ⟨last, rfl⟩ := List.length_eq_one_iff.mp hlast
    refine fits_append_congr (List.cons_ne_nil _ _) (List.cons_ne_nil _ _) ?_
    intro bookmark pinned
    cases last with
    | child => exact Iff.rfl
    | node test => simp [Fits]

end Search

namespace Compiled

variable {expander : Expander} {document : Json} {query other : Compiled} {trace : Trace}

/-- A selector is vacuous when its only node step is the one for the document
and tests nothing but the name. -/
theorem isVacuous_iff_filter :
    query.isVacuous = true ↔
      query.steps.filter (fun step => !step.isChild) = [.node (rootTest [])] := by
  have hroot : (Step.node (rootTest query.rootPredicates) = .node (rootTest [])) ↔
      query.rootPredicates = [] := by
    simp [rootTest]
  rw [steps, List.filter_append, isVacuous, Bool.and_eq_true, List.isEmpty_iff, List.all_eq_true]
  simp [Step.isChild, List.append_eq_singleton_iff, hroot, and_comm]

theorem isVacuous_insert_child {before after : List Step} (h : query.steps = before ++ after)
    (hother : other.steps = before ++ .child :: after) : other.isVacuous = query.isVacuous := by
  rw [Bool.eq_iff_iff, isVacuous_iff_filter, isVacuous_iff_filter, h, hother]
  simp [Step.isChild]

/-- A combinator at a place that pins changes no match. -/
theorem selects_insert_child {before after : List Step} (h : query.steps = before ++ after)
    (hother : other.steps = before ++ .child :: after) (hpins : Search.Pins before after)
    (document : Json) (trace : Trace) :
    other.selects expander document trace = query.selects expander document trace := by
  rw [selects, selects, isVacuous_insert_child h hother]
  congr 1
  rw [Bool.eq_iff_iff, Search.run_iff, Search.run_iff, h, hother]
  exact Search.fits_insert_child_iff hpins

/-- A selector that is not vacuous keeps every match when it asks for less, be it
in its steps or in records that stand for them, where a combinator can have
predicates as well.  And a combinator at the start, next to another one or
directly before the step for the document changes no match at all. -/
theorem selects_of_narrowsTo (expander : Expander) (document : Json) (query other : Compiled)
    (trace : Trace) :
    (query.isVacuous = false → Relation.ReflTransGen Search.NarrowsTo query.steps other.steps →
      other.selects expander document trace = true →
        query.selects expander document trace = true) ∧
    (∀ records stronger : List StepRecord, query.steps = records.map StepRecord.step →
      other.steps = stronger.map StepRecord.step →
      Relation.ReflTransGen Search.RecordsNarrowTo records stronger →
        query.isVacuous = false → other.selects expander document trace = true →
          query.selects expander document trace = true) ∧
    ∀ before after, query.steps = before ++ after → other.steps = before ++ .child :: after →
      Search.Pins before after →
        other.selects expander document trace = query.selects expander document trace := by
  have hsteps : query.isVacuous = false →
      Relation.ReflTransGen Search.NarrowsTo query.steps other.steps →
        other.selects expander document trace = true →
          query.selects expander document trace = true := by
    intro hvacuous hnarrows hselects
    simp only [selects, Bool.and_eq_true, Bool.not_eq_true', Search.run_iff] at hselects ⊢
    obtain ⟨⟨-, htrace⟩, hfits⟩ := hselects
    exact ⟨⟨hvacuous, htrace⟩, hfits.of_narrowsTo_trans NodeTest.passesAt_of_narrowsTo hnarrows⟩
  refine ⟨hsteps, ?_, ?_⟩
  · intro records stronger hquery hother hnarrows hvacuous
    refine hsteps hvacuous ?_
    rw [hquery, hother]
    exact Search.narrowsTo_of_records hnarrows
  · intro before after hquery hother hpins
    exact selects_insert_child hquery hother hpins document trace

/-- A name, a combinator and a predicate more, and among the records a predicate
for the combinator too; and then a second combinator next to the first. -/
theorem selects_of_narrowsTo_threeChanges :
    let expander := Context.empty.expander
    let document : Json := .object [("a", .object [("b", .object [("c", .string "v")])])]
    let query := compile expander "* b"
    let narrower := compile expander "a > b[c=v]"
    let doubled := compile expander "a >> b[c=v]"
    query.isVacuous = false ∧
      Relation.ReflTransGen Search.NarrowsTo query.steps narrower.steps ∧
      (∃ records stronger : List StepRecord, query.steps = records.map StepRecord.step ∧
        narrower.steps = stronger.map StepRecord.step ∧
        Relation.ReflTransGen Search.RecordsNarrowTo records stronger ∧
        (∃ record ∈ stronger, record.directChild = true ∧ record.predicates ≠ []) ∧
        ∀ trace, narrower.selects expander document trace = true →
          query.selects expander document trace = true) ∧
      ∃ before after, narrower.steps = before ++ after ∧ doubled.steps = before ++ .child :: after ∧
        Search.Pins before after ∧
        ∃ trace ∈ traces document, narrower.selects expander document trace = true ∧
          query.selects expander document trace = true ∧
          doubled.selects expander document trace = true := by
  intro expander document query narrower doubled
  let predicate : Predicate := { key := "c", expected := "v", expanded := true }
  let root := rootTest []
  let a := NodeTest.named "a"
  let b := NodeTest.named "b"
  let tested := b.require predicate
  let records := query.steps.map Step.record
  let stronger : List StepRecord :=
    [.node tested, StepRecord.child.require predicate, .node a, .node root]
  have hvacuous : query.isVacuous = false := by decide +kernel
  have hquery : query.steps = [.node b, .node .any, .node root] := by decide +kernel
  have hnarrower : narrower.steps = [.node tested, .child, .node a, .node root] := by
    decide +kernel
  have hdoubled : doubled.steps = [.node tested, .child, .child, .node a, .node root] := by
    decide +kernel
  have hnarrows : Relation.ReflTransGen Search.NarrowsTo query.steps narrower.steps := by
    rw [hquery, hnarrower]
    have hname : Search.NarrowsTo [.node b, .node .any, .node root]
        [.node b, .node a, .node root] := .cons _ (.step (.name "a" []) _)
    have hchild : Search.NarrowsTo [.node b, .node a, .node root]
        [.node b, .child, .node a, .node root] := .cons _ (.child _ _)
    have htest : Search.NarrowsTo [.node b, .child, .node a, .node root]
        [.node tested, .child, .node a, .node root] :=
      .step (.predicate (some "b") [] [] predicate) _
    exact .tail (.tail (.single hname) hchild) htest
  have hstands : query.steps = records.map StepRecord.step :=
    (StepRecord.map_step_map_record query.steps).symm
  -- The records go the same way, and one step further.
  have hrecords : Relation.ReflTransGen Search.RecordsNarrowTo records stronger := by
    have hname : Search.RecordsNarrowTo records [.node b, .node a, .node root] := by
      rw [show records = _ from congrArg (List.map Step.record) hquery]
      exact .cons _ (.step (.name "a" []) _)
    have hchild : Search.RecordsNarrowTo [.node b, .node a, .node root]
        [.node b, .child, .node a, .node root] := .cons _ (.child _ _)
    have htest : Search.RecordsNarrowTo [.node b, .child, .node a, .node root]
        [.node tested, .child, .node a, .node root] :=
      .step (.predicate (some "b") false [] [] predicate) _
    have hbound : Search.RecordsNarrowTo [.node tested, .child, .node a, .node root] stronger :=
      .cons _ (.step (.predicate none true [] [] predicate) _)
    exact .tail (.tail (.tail (.single hname) hchild) htest) hbound
  have hpins : Search.Pins [.node tested, .child] [.node a, .node root] := Or.inr (Or.inl rfl)
  obtain ⟨trace, htrace, hselects⟩ : ∃ trace ∈ traces document,
      narrower.selects expander document trace = true := by
    have hholds : predicate.holds expander (.object [("c", .string "v")]) = true := by
      simp [predicate, Predicate.holds, Predicate.acceptsText, Expander.accepts, Json.anyText,
        Json.anyTextOfItem]
    rw [traces_eq]
    refine ⟨_, List.mem_map_of_mem (List.mem_of_getElem? (i := 2) rfl), ?_⟩
    rw [selects, Bool.and_eq_true, Search.run_iff, hnarrower]
    refine ⟨by decide +kernel, 2, by decide, fun _ => rfl, ?_, 1, by decide, fun _ => rfl,
      by decide +kernel, 0, by decide, fun _ => rfl, by decide +kernel, trivial⟩
    show (expander.accepts "b" "b" && (false || [predicate].all fun predicate =>
      predicate.holds expander (.object [("c", .string "v")]))) = true
    rw [List.all_cons, hholds]
    decide +kernel
  have hfirst := (selects_of_narrowsTo expander document query narrower trace).1 hvacuous hnarrows
    hselects
  have hsecond := (selects_of_narrowsTo expander document narrower doubled trace).2.2 _ _ hnarrower
    hdoubled hpins
  refine ⟨hvacuous, hnarrows, ⟨records, stronger, hstands, hnarrower, hrecords, ?_, ?_⟩, _, _,
    hnarrower, hdoubled, hpins, trace, htrace, hselects, hfirst, hsecond.trans hselects⟩
  · exact ⟨_, List.mem_cons_of_mem _ List.mem_cons_self, rfl, List.cons_ne_nil _ _⟩
  · intro trace
    exact (selects_of_narrowsTo expander document query narrower trace).2.1 records stronger
      hstands hnarrower hrecords hvacuous

end Compiled

end LinkedPath
