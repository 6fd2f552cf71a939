import LinkedPath.Proofs.Query.Assembly
import LinkedPath.Proofs.Query.Records

/-!
# Steps read back

Read from the last step to the first, each with its predicates behind it, the
steps of a selector say what its parts said.  `Step.marks` reads a step, and
`Part.mark` is what a part says once its names are expanded.  One part adds its
mark, and a predicate right behind a combinator the mark of a node before it
(`Draft.marks_add`); so all parts leave their marks in order
(`marks_assemble`).  No mark is lost on the way, and a predicate stands behind
the mark of the step that it was attached to (`exists_step_of_marks`).
-/

namespace LinkedPath

/-- What is read at one place of a selector. -/
inductive Mark
  /-- A node, by its full name unless any node will do. -/
  | node (name? : Option String)
  /-- The child combinator. -/
  | child
  /-- A predicate on the node before it. -/
  | predicate (predicate : Predicate)
  deriving DecidableEq, Repr

/-- A step read out, with its predicates behind it. -/
def Step.marks : Step → List Mark
  | .node test => .node test.name? :: test.predicates.map .predicate
  | .child => [.child]

namespace Part

/-- The part is a predicate. -/
def isPredicate : Part → Bool
  | predicate _ _ => true
  | _ => false

/-- What a part says: names and keys are expanded, and so are values unless the
key is literal; a star stands for any node. -/
def mark (expander : Expander) : Part → Mark
  | anchor => .node none
  | child => .child
  | segment text => .node (if text = "*" then none else some (expander.expand text))
  | predicate key value => .predicate
      { key := expander.expand key
        expected := if Predicate.isLiteralKey key then value else expander.expand value
        expanded := !Predicate.isLiteralKey key }

/-- The parts with a node before every predicate that directly follows a
combinator.  The flag says whether a combinator comes right before them. -/
def withNodes : Bool → List Part → List Part
  | _, [] => []
  | true, predicate key value :: rest => anchor :: predicate key value :: withNodes false rest
  | _, part :: rest => part :: withNodes (part = child) rest

theorem mark_anchor (expander : Expander) : anchor.mark expander = .node none := rfl

theorem mark_predicate (expander : Expander) (key value : String) :
    (predicate key value).mark expander = .predicate (Predicate.compile expander key value) := by
  unfold Predicate.compile
  split
  · rename_i hliteral
    simp [mark, hliteral]
  · rename_i hliteral
    simp [mark, hliteral]

theorem withNodes_cons (behindChild : Bool) (part : Part) (rest : List Part) :
    withNodes behindChild (part :: rest) =
      (if behindChild && part.isPredicate then [anchor, part] else [part]) ++
        withNodes (part = child) rest := by
  cases behindChild <;> cases part <;> rfl

end Part

namespace Compiled

open LinkedPath.Part (withNodes)

variable (expander : Expander)

/-! ## The marks of a draft -/

/-- What was read so far, without the mark of the document. -/
def Draft.marks (draft : Draft) : List Mark :=
  draft.rootPredicates.map .predicate ++ draft.path.reverse.flatMap Step.marks

/-- The step read last is a combinator. -/
def Draft.endsInChild (draft : Draft) : Bool := draft.path.head?.any Step.isChild

theorem Draft.marks_cons (draft : Draft) (step : Step) :
    { draft with path := step :: draft.path }.marks = draft.marks ++ step.marks := by
  simp [marks]

theorem Draft.marks_require (draft : Draft) (predicate : Predicate) :
    (draft.require predicate).marks =
      draft.marks ++ (if draft.endsInChild then [.node none] else []) ++ [.predicate predicate] := by
  obtain ⟨path, rootPredicates⟩ := draft
  cases path with
  | nil => simp [require, marks, endsInChild]
  | cons step rest =>
      cases step with
      | child =>
          simp [require, marks, endsInChild, Step.marks, Step.isChild, NodeTest.require,
            NodeTest.any]
      | node test =>
          simp [require, marks, endsInChild, Step.marks, Step.isChild, NodeTest.require]

/-- A part adds its mark, and a predicate behind a combinator a node before
it. -/
theorem Draft.marks_add (draft : Draft) (part : Part) :
    (draft.add expander part).marks =
      draft.marks ++
        (if draft.endsInChild && part.isPredicate then [Part.anchor, part] else [part]).map
          (Part.mark expander) := by
  cases part with
  | anchor =>
      rw [add, draft.marks_cons]
      simp [Part.isPredicate, Part.mark, Step.marks, NodeTest.any]
  | child =>
      rw [add, draft.marks_cons]
      simp [Part.isPredicate, Part.mark, Step.marks]
  | segment text =>
      rw [add, draft.marks_cons]
      by_cases hwildcard : text = wildcard
      · simp [Part.isPredicate, Part.mark, Step.marks, hwildcard, wildcard, NodeTest.any]
      · have hstar : text ≠ "*" := hwildcard
        simp [Part.isPredicate, Part.mark, Step.marks, hwildcard, hstar, NodeTest.named]
  | predicate key value =>
      rw [add, draft.marks_require]
      cases draft.endsInChild with
      | false => simp [Part.mark_predicate]
      | true => simp [Part.isPredicate, Part.mark_predicate, Part.mark_anchor]

theorem Draft.endsInChild_add (draft : Draft) (part : Part) :
    (draft.add expander part).endsInChild = decide (part = .child) := by
  obtain ⟨path, rootPredicates⟩ := draft
  cases part with
  | anchor | child | segment => rfl
  | predicate key value =>
      cases path with
      | nil => rfl
      | cons step rest => cases step <;> rfl

/-- All parts add their marks in order. -/
theorem Draft.marks_foldl (draft : Draft) (parts : List Part) :
    (parts.foldl (Draft.add expander) draft).marks =
      draft.marks ++ (withNodes draft.endsInChild parts).map (Part.mark expander) := by
  induction parts generalizing draft with
  | nil => simp [withNodes]
  | cons part rest ih =>
      rw [List.foldl_cons, ih, Draft.marks_add, Draft.endsInChild_add, Part.withNodes_cons,
        List.map_append, List.append_assoc]

theorem marks_assemble (parts : List Part) :
    (assemble expander parts).marks = (withNodes false parts).map (Part.mark expander) :=
  Draft.marks_foldl expander .empty parts

/-! ## The marks of all steps -/

/-- Read from the last step on, the steps say the document and then what the
parts say. -/
theorem marks_steps_ofParts (source : String) (parts : List Part) :
    (ofParts expander source parts).steps.reverse.flatMap Step.marks =
      .node (some Keyword.document) :: (withNodes false parts).map (Part.mark expander) := by
  rw [← marks_assemble]
  simp [steps, ofParts, Draft.marks, Step.marks, rootTest]

/-- A predicate in the marks of a step is one of its predicates, behind the node
and the predicates before it. -/
theorem exists_of_marks_step {step : Step} {front back : List Mark} {predicate : Predicate}
    (h : step.marks = front ++ .predicate predicate :: back) :
    ∃ test first second, step = .node test ∧ test.predicates = first ++ predicate :: second ∧
      front = .node test.name? :: first.map .predicate := by
  cases step with
  | child =>
      obtain ⟨rfl, hchild⟩ | ⟨_, hnil⟩ := List.singleton_eq_append_iff.mp h
      · simp at hchild
      · simp at hnil
  | node test =>
      cases front with
      | nil => simp [Step.marks] at h
      | cons mark front =>
          obtain ⟨rfl, hpredicates⟩ := List.cons.inj h
          obtain ⟨first, rest, hsplit, rfl, hrest⟩ := List.map_eq_append_iff.mp hpredicates
          obtain ⟨other, second, rfl, hother, -⟩ := List.map_eq_cons_iff.mp hrest
          cases hother
          exact ⟨test, first, second, rfl, hsplit, rfl⟩

/-- A predicate that is read belongs to the step read last, behind the
predicates of this step that were read before it. -/
theorem exists_step_of_marks {steps : List Step} {front back : List Mark} {predicate : Predicate}
    (h : steps.flatMap Step.marks = front ++ .predicate predicate :: back) :
    ∃ earlier test later first second, steps = earlier ++ .node test :: later ∧
      test.predicates = first ++ predicate :: second ∧
      front = earlier.flatMap Step.marks ++ .node test.name? :: first.map .predicate := by
  induction steps generalizing front with
  | nil => simp at h
  | cons step rest ih =>
      rw [List.flatMap_cons] at h
      obtain ⟨more, rfl, hrest⟩ | ⟨more, hstep, hrest⟩ := List.append_eq_append_iff.mp h
      · obtain ⟨earlier, test, later, first, second, rfl, hpredicates, rfl⟩ := ih hrest
        exact ⟨step :: earlier, test, later, first, second, rfl, hpredicates, by simp⟩
      · cases more with
        | nil =>
            -- A step begins with a node or is a combinator, so no predicate comes first.
            have hfirst : rest.flatMap Step.marks = [] ++ .predicate predicate :: back := hrest.symm
            obtain ⟨earlier, test, later, first, second, -, -, hnil⟩ := ih hfirst
            simp at hnil
        | cons mark more =>
            obtain ⟨rfl, -⟩ := List.cons.inj hrest
            obtain ⟨test, first, second, rfl, hpredicates, rfl⟩ := exists_of_marks_step hstep
            exact ⟨[], test, rest, first, second, rfl, hpredicates, rfl⟩

theorem marks_ne_nil (step : Step) : step.marks ≠ [] := by
  cases step <;> exact List.cons_ne_nil _ _

/-- Nothing but predicates comes before a predicate exactly when no step comes
before the one that it belongs to. -/
theorem earlier_eq_nil_iff {earlier : List Step} {test : NodeTest} {first : List Predicate}
    {before : List Part} {document? : Option String}
    (h : .node document? :: before.map (Part.mark expander) =
      earlier.flatMap Step.marks ++ .node test.name? :: first.map .predicate) :
    earlier = [] ↔ ∀ part ∈ before, part.isPredicate = true := by
  constructor
  · rintro rfl part hpart
    obtain ⟨-, hmarks⟩ := List.cons.inj h
    have hmark : part.mark expander ∈ first.map Mark.predicate := by
      rw [← hmarks]
      exact List.mem_map_of_mem hpart
    obtain ⟨predicate, -, hpredicate⟩ := List.mem_map.mp hmark
    cases part with
    | predicate key value => rfl
    | anchor | child | segment => simp [Part.mark] at hpredicate
  · intro hall
    cases earlier with
    | nil => rfl
    | cons step more =>
        -- Then the node that the predicate belongs to is among the marks of the parts.
        obtain ⟨mark, marks, hstep⟩ := List.exists_cons_of_ne_nil (marks_ne_nil step)
        rw [List.flatMap_cons, hstep] at h
        obtain ⟨-, hmarks⟩ := List.cons.inj h
        have hmem : Mark.node test.name? ∈ before.map (Part.mark expander) := by
          rw [hmarks]
          simp
        obtain ⟨part, hpart, hnode⟩ := List.mem_map.mp hmem
        have hpredicate := hall part hpart
        cases part with
        | predicate key value => simp [Part.mark] at hnode
        | anchor | child | segment => contradiction

/-- Putting parts together keeps all of them, in order.  The last step is the
one for the document, and a combinator tests nothing; put together as records,
which could hold a test for a combinator, the steps still have bare combinators.
Read from the last step on, the steps say the document and then the parts, with
a node before every predicate that directly follows a combinator.  So a
predicate belongs to the nearest node step before it: what is read up to the
predicate ends with this step and its earlier predicates.  The step is the one
for the document exactly when nothing but predicates comes before. -/
theorem steps_read_back (expander : Expander) (source : String) (parts : List Part) :
    let query := ofParts expander source parts
    (∃ root, query.steps.getLast? = some root ∧ root.name? = some "#document" ∧
        root.isChild = false) ∧
      (∀ step ∈ query.steps, step.isChild = true → step.name? = none ∧ step.predicates = []) ∧
      (query.steps.map Step.record = assembleRecords expander parts ∧
        ∀ record ∈ assembleRecords expander parts, record.directChild = true →
          record.name? = none ∧ record.predicates = []) ∧
      query.steps.reverse.flatMap Step.marks =
        .node (some "#document") :: (withNodes false parts).map (Part.mark expander) ∧
      ∀ before key value after, withNodes false parts = before ++ .predicate key value :: after →
        ∃ earlier test later first second,
          query.steps.reverse = earlier ++ .node test :: later ∧
          test.predicates = first ++ Predicate.compile expander key value :: second ∧
          .node (some "#document") :: before.map (Part.mark expander) =
            earlier.flatMap Step.marks ++ .node test.name? :: first.map .predicate ∧
          (earlier = [] ↔ ∀ part ∈ before, part.isPredicate = true) := by
  intro query
  have hmarks : query.steps.reverse.flatMap Step.marks =
      .node (some "#document") :: (withNodes false parts).map (Part.mark expander) :=
    marks_steps_ofParts expander source parts
  refine ⟨⟨_, List.getLast?_concat, rfl, rfl⟩, ?_, ⟨(assembleRecords_eq ..).symm, ?_⟩, hmarks, ?_⟩
  · intro step _ hchild
    cases step with
    | child => exact ⟨rfl, rfl⟩
    | node test => contradiction
  · exact fun _ => bare_of_mem_assembleRecords
  · intro before key value after hsplit
    rw [hsplit, List.map_append, List.map_cons, Part.mark_predicate, ← List.cons_append] at hmarks
    obtain ⟨earlier, test, later, first, second, hsteps, hpredicates, hfront⟩ :=
      exists_step_of_marks hmarks
    exact ⟨earlier, test, later, first, second, hsteps, hpredicates, hfront,
      earlier_eq_nil_iff expander hfront⟩

/-- A predicate on the document, and one behind a combinator, which gets a node
of its own. -/
theorem steps_read_back_behindChild :
    let expander := (Context.empty.withAlias "x" "http://x#").expander
    let parts : List Part :=
      [.predicate "@index" "x:i", .child, .predicate "x:k" "x:v", .segment "*"]
    let before : List Part := [.predicate "@index" "x:i", .child, .anchor]
    withNodes false parts = before ++ .predicate "x:k" "x:v" :: [.segment "*"] ∧
      ∃ earlier test later first second,
        (ofParts expander "" parts).steps.reverse = earlier ++ .node test :: later ∧
        test.predicates = first ++ ⟨"http://x#k", "http://x#v", true⟩ :: second ∧ earlier ≠ [] := by
  intro expander parts before
  have hsplit : withNodes false parts = before ++ .predicate "x:k" "x:v" :: [.segment "*"] := rfl
  have hcompile : Predicate.compile expander "x:k" "x:v" = ⟨"http://x#k", "http://x#v", true⟩ := by
    decide +kernel
  obtain ⟨earlier, test, later, first, second, hsteps, hpredicates, -, hroot⟩ :=
    (steps_read_back expander "" parts).2.2.2.2 _ _ _ _ hsplit
  rw [hcompile] at hpredicates
  refine ⟨hsplit, earlier, test, later, first, second, hsteps, hpredicates, ?_⟩
  intro hnil
  have hchild := hroot.mp hnil .child (by simp [before])
  contradiction

end Compiled

end LinkedPath
