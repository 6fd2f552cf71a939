import LinkedPath.Query.Compiled

/-!
# Assembling parts in a row

Parts that begin with a node of their own leave alone what was assembled before
them.  Their steps come to stand before the earlier ones, and their predicates
never reach the document, so two lists of parts in a row are assembled apart
(`assemble_append`).
-/

namespace LinkedPath

/-- The part brings a node of its own. -/
def Part.bringsNode : Part → Bool
  | anchor => true
  | segment _ => true
  | _ => false

namespace Compiled

variable (expander : Expander) {draft : Draft}

/-- The draft on top of what was read before it. -/
def Draft.above (draft before : Draft) : Draft :=
  { path := draft.path ++ before.path, rootPredicates := before.rootPredicates }

/-- Some step of the draft is no combinator. -/
def Draft.HasNode (draft : Draft) : Prop := draft.path.all Step.isChild = false

theorem Draft.HasNode.require (h : draft.HasNode) (before : Draft) (predicate : Predicate) :
    (draft.above before).require predicate = (draft.require predicate).above before ∧
      (draft.require predicate).HasNode ∧
      (draft.require predicate).rootPredicates = draft.rootPredicates := by
  obtain ⟨path, rootPredicates⟩ := draft
  cases path with
  | nil => contradiction
  | cons step rest =>
      cases step with
      | child => exact ⟨rfl, rfl, rfl⟩
      | node test => exact ⟨rfl, rfl, rfl⟩

/-- A draft with a node step takes up every part by itself. -/
theorem Draft.HasNode.add (h : draft.HasNode) (before : Draft) (part : Part) :
    (draft.above before).add expander part = (draft.add expander part).above before ∧
      (draft.add expander part).HasNode ∧
      (draft.add expander part).rootPredicates = draft.rootPredicates := by
  cases part with
  | anchor => exact ⟨rfl, rfl, rfl⟩
  | child => exact ⟨rfl, h, rfl⟩
  | predicate key value => exact h.require before (Predicate.compile expander key value)
  | segment text => exact ⟨rfl, rfl, rfl⟩

theorem Draft.HasNode.foldl (h : draft.HasNode) (before : Draft) (parts : List Part) :
    parts.foldl (Draft.add expander) (draft.above before) =
        (parts.foldl (Draft.add expander) draft).above before ∧
      (parts.foldl (Draft.add expander) draft).HasNode ∧
      (parts.foldl (Draft.add expander) draft).rootPredicates = draft.rootPredicates := by
  induction parts generalizing draft with
  | nil => exact ⟨rfl, h, rfl⟩
  | cons part rest ih =>
      obtain ⟨habove, hnode, hroot⟩ := h.add expander before part
      rw [List.foldl_cons, List.foldl_cons, habove, ← hroot]
      exact ih hnode

/-- A part that brings a node starts a draft that has one. -/
theorem Draft.add_of_bringsNode {part : Part} (h : part.bringsNode = true) (before : Draft) :
    before.add expander part = (Draft.empty.add expander part).above before ∧
      (Draft.empty.add expander part).HasNode ∧
      (Draft.empty.add expander part).rootPredicates = [] := by
  cases part with
  | anchor => exact ⟨rfl, rfl, rfl⟩
  | segment text => exact ⟨rfl, rfl, rfl⟩
  | child => contradiction
  | predicate key value => contradiction

/-- Parts that begin with a node are assembled by themselves, on top of the
parts before them. -/
theorem assemble_append {first : Part} (h : first.bringsNode = true) (before rest : List Part) :
    assemble expander (before ++ first :: rest) =
        (assemble expander (first :: rest)).above (assemble expander before) ∧
      (assemble expander (first :: rest)).HasNode ∧
      (assemble expander (first :: rest)).rootPredicates = [] := by
  obtain ⟨hadd, hnode, hroot⟩ :=
    Draft.add_of_bringsNode expander h (assemble expander before)
  obtain ⟨hfoldl, hnode, hroot'⟩ :=
    hnode.foldl expander (assemble expander before) rest
  refine ⟨?_, hnode, hroot'.trans hroot⟩
  rw [assemble, List.foldl_append, List.foldl_cons]
  show rest.foldl (Draft.add expander) ((assemble expander before).add expander first) = _
  rw [hadd, hfoldl]
  rfl

theorem assemble_concat_child (parts : List Part) :
    assemble expander (parts ++ [.child]) =
      { assemble expander parts with path := .child :: (assemble expander parts).path } := by
  rw [assemble, List.foldl_append]
  rfl

end Compiled

end LinkedPath
