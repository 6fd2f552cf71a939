import LinkedPath.Query.Compiled

/-!
# Selectors put together from records

A record has the same fields for every step, so nothing in it keeps a predicate
from a combinator, or a name.  What does is how selectors are put together: a
predicate goes to the record read last, whichever it is, but behind a combinator
a record for any node is put first.  Selectors that are put together in this way
from records have the records of their steps (`assembleRecords_eq`), and all
these combinators are bare (`bare_of_mem_assembleRecords`).
-/

namespace LinkedPath

namespace StepRecord

/-- The step that a record stands for.  Of a combinator nothing else counts. -/
def step (record : StepRecord) : Step :=
  if record.directChild then .child
  else .node { name? := record.name?, predicates := record.predicates }

@[simp] theorem step_record (step : Step) : step.record.step = step := by
  cases step <;> rfl

/-- Steps are what their records stand for. -/
theorem map_step_map_record (steps : List Step) :
    (steps.map Step.record).map StepRecord.step = steps := by
  simp [Function.comp_def]

/-- One more predicate, behind the others. -/
def require (record : StepRecord) (predicate : Predicate) : StepRecord :=
  { record with predicates := record.predicates ++ [predicate] }

end StepRecord

namespace Compiled

/-- The records read so far, last one first, and the record of the document. -/
structure RecordDraft where
  path : List StepRecord
  root : StepRecord
  deriving DecidableEq, Repr

namespace RecordDraft

/-- Before the first part. -/
def empty : RecordDraft := { path := [], root := .node (rootTest []) }

/-- Put a record behind the others. -/
def push (draft : RecordDraft) (record : StepRecord) : RecordDraft :=
  { draft with path := record :: draft.path }

/-- The record read last is a combinator. -/
def endsInChild (draft : RecordDraft) : Bool := draft.path.head?.any StepRecord.directChild

/-- Attach a predicate to the record read last, or else to that of the
document. -/
def require (draft : RecordDraft) (predicate : Predicate) : RecordDraft :=
  match draft.path with
  | [] => { draft with root := draft.root.require predicate }
  | last :: before => { draft with path := last.require predicate :: before }

/-- Take up one part. -/
def add (expander : Expander) (draft : RecordDraft) : Part → RecordDraft
  | .anchor => draft.push (.node .any)
  | .child => draft.push .child
  | .predicate key value =>
      let behindNode := if draft.endsInChild then draft.push (.node .any) else draft
      behindNode.require (Predicate.compile expander key value)
  | .segment text =>
      if text = wildcard then draft.push (.node .any)
      else draft.push (.node (.named (expander.expand text)))

end RecordDraft

/-- The records of a selector with given parts, from right to left. -/
def assembleRecords (expander : Expander) (parts : List Part) : List StepRecord :=
  let draft := parts.foldl (RecordDraft.add expander) .empty
  draft.path ++ [draft.root]

/-- A draft of steps with the records in their place. -/
def Draft.records (draft : Draft) : RecordDraft :=
  { path := draft.path.map Step.record, root := .node (rootTest draft.rootPredicates) }

/-- A part does to the records what it does to the steps. -/
theorem Draft.records_add (expander : Expander) (draft : Draft) (part : Part) :
    (draft.add expander part).records = draft.records.add expander part := by
  obtain ⟨path, rootPredicates⟩ := draft
  cases part with
  | anchor | child => rfl
  | segment text =>
      rw [Draft.add, RecordDraft.add]
      split <;> rfl
  | predicate key value =>
      cases path with
      | nil => rfl
      | cons last before => cases last <;> rfl

theorem Draft.records_foldl (expander : Expander) (draft : Draft) (parts : List Part) :
    (parts.foldl (Draft.add expander) draft).records =
      parts.foldl (RecordDraft.add expander) draft.records := by
  induction parts generalizing draft with
  | nil => rfl
  | cons part rest ih => rw [List.foldl_cons, List.foldl_cons, ih, draft.records_add]

/-- Putting records together gives the records of the steps. -/
theorem assembleRecords_eq (expander : Expander) (source : String) (parts : List Part) :
    assembleRecords expander parts = (ofParts expander source parts).steps.map Step.record := by
  have hrecords : (assemble expander parts).records =
      parts.foldl (RecordDraft.add expander) .empty := Draft.records_foldl expander .empty parts
  rw [assembleRecords, ← hrecords, steps, List.map_append]
  rfl

/-- The records of combinators are bare, whatever the parts are. -/
theorem bare_of_mem_assembleRecords {expander : Expander} {parts : List Part}
    {record : StepRecord} (h : record ∈ assembleRecords expander parts)
    (hchild : record.directChild = true) : record.name? = none ∧ record.predicates = [] := by
  rw [assembleRecords_eq expander ""] at h
  obtain ⟨step, -, rfl⟩ := List.mem_map.mp h
  cases step with
  | child => exact ⟨rfl, rfl⟩
  | node test => contradiction

end Compiled

end LinkedPath
