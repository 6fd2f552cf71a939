import Mathlib.Data.List.Forall2
import LinkedPath.Proofs.Trace.Chains

/-!
# Walks in step

Two documents are walked in step when their spots correspond: corresponding
spots are of one kind and have corresponding children.  Then the chains of the
two documents correspond one by one, with the same numbers and with
corresponding spots all along (`documentOrder`).
-/

namespace LinkedPath

/-- Related entries of two lists that give the same make the same list. -/
theorem map_eq_map_of_forall₂ {α β γ : Type} {related : α → β → Prop} {f : α → γ} {g : β → γ}
    {first : List α} {second : List β} (h : List.Forall₂ related first second)
    (heq : ∀ a ∈ first, ∀ b ∈ second, related a b → f a = g b) : first.map f = second.map g := by
  induction h with
  | nil => rfl
  | cons hrelated _ ih =>
      rw [List.map_cons, List.map_cons,
        heq _ List.mem_cons_self _ List.mem_cons_self hrelated, ih]
      exact fun a ha b hb => heq a (List.mem_cons_of_mem _ ha) b (List.mem_cons_of_mem _ hb)

/-- A correspondence of spots that the walk carries from a spot to its
children. -/
structure Spot.InStep (alike : Spot → Spot → Prop) : Prop where
  kind : ∀ {spot other}, alike spot other → spot.kind = other.kind
  children : ∀ {spot other}, alike spot other → List.Forall₂ alike spot.children other.children

/-- Visits with the same number at corresponding spots. -/
def Visit.Alike (alike : Spot → Spot → Prop) (visit other : Visit) : Prop :=
  visit.id = other.id ∧ alike visit.spot other.spot

namespace Chain

/-- Chains of corresponding visits. -/
def Alike (alike : Spot → Spot → Prop) : Chain → Chain → Prop :=
  List.Forall₂ (Visit.Alike alike)

variable {alike : Spot → Spot → Prop} {around around' : Chain}

/-- Chains of corresponding visits have corresponding spots. -/
theorem Alike.line {chain other : Chain} (h : Alike alike chain other) :
    List.Forall₂ alike (chain.map Visit.spot) (other.map Visit.spot) := by
  rw [List.forall₂_map_left_iff, List.forall₂_map_right_iff]
  exact h.imp fun _ _ hvisit => hvisit.2

theorem Alike.nodeId?_eq {chain other : Chain} (h : Alike alike chain other) :
    other.nodeId? = chain.nodeId? := by
  cases h with
  | nil => rfl
  | cons hvisit _ => exact congrArg some hvisit.1.symm

theorem alike_ofSpots {spots others : List Spot} (hspots : List.Forall₂ alike spots others)
    (h : ∀ spot ∈ spots, ∀ other, alike spot other → ∀ next,
      List.Forall₂ (Alike alike) (ofSpot around next spot) (ofSpot around' next other))
    (next : Nat) :
    List.Forall₂ (Alike alike) (ofSpots around next spots) (ofSpots around' next others) := by
  induction hspots generalizing next with
  | nil => exact .nil
  | @cons spot other rest others hspot _ ih =>
      obtain ⟨hfirst, hrest⟩ := List.forall_mem_cons.mp h
      have hchains := hfirst other hspot next
      rw [ofSpots, ofSpots, ← hchains.length_eq]
      exact List.rel_append hchains (ih hrest _)

theorem alike_ofSpot (hstep : Spot.InStep alike) {spot other : Spot} (h : alike spot other)
    (haround : Alike alike around around') (next : Nat) :
    List.Forall₂ (Alike alike) (ofSpot around next spot) (ofSpot around' next other) := by
  induction spot using Spot.induction generalizing other around around' next with
  | step spot ih =>
      have hvisit : Alike alike ({ id := next, spot } :: around) ({ id := next, spot := other } :: around') :=
        .cons ⟨rfl, h⟩ haround
      have hchildren : ∀ {around around' : Chain}, Alike alike around around' → ∀ next,
          List.Forall₂ (Alike alike) (ofSpots around next spot.children)
            (ofSpots around' next other.children) := by
        intro around around' haround next
        exact alike_ofSpots (hstep.children h)
          (fun child hchild other hother next => ih child hchild hother haround next) next
      rw [ofSpot_eq, ofSpot_eq, ← hstep.kind h]
      cases spot.kind with
      | leaf => exact .cons hvisit .nil
      | array => exact hchildren haround next
      | object => exact .cons hvisit (hchildren hvisit _)

/-- Documents that are walked in step have corresponding chains. -/
theorem alike_documentOrder (hstep : Spot.InStep alike) {document document' : Json}
    (h : alike (Spot.root document) (Spot.root document')) :
    List.Forall₂ (Alike alike) (documentOrder document) (documentOrder document') := by
  have hroot : Alike alike (root document) (root document') := .cons ⟨rfl, h⟩ .nil
  rw [documentOrder_eq, documentOrder_eq]
  refine .cons hroot (alike_ofSpots (hstep.children h) ?_ 1)
  intro spot _ other hother next
  exact alike_ofSpot hstep hother hroot next

end Chain

end LinkedPath
