import LinkedPath.Proofs.Match.Placement

/-!
# Descents

Two lists of steps in a row are placed by placing the first list down to some
landing and the second one below it.  `Lands` says which landings the first
list can reach, and `fits_append_iff` takes a placement apart there.  The
second list must not depend on whether its first step is pinned, as is so
behind a combinator and for the last step of all.
-/

namespace LinkedPath
namespace Search

/-- Steps can be placed below a bookmark so that what comes after them has to
be placed below the landing. -/
def Lands (passes : NodeTest → Nat → Bool) : List Step → Nat → Bool → Nat → Prop
  | [], bookmark, _, landing => landing = bookmark
  | .child :: rest, bookmark, _, landing => Lands passes rest bookmark true landing
  | .node test :: rest, bookmark, pinned, landing =>
      ∃ position, position < bookmark ∧ (pinned = true → position + 1 = bookmark) ∧
        passes test position = true ∧ Lands passes rest position false landing

variable {passes other : NodeTest → Nat → Bool} {steps first second : List Step}
  {bookmark landing : Nat} {pinned : Bool}

theorem Lands.le (h : Lands passes steps bookmark pinned landing) : landing ≤ bookmark := by
  induction steps generalizing bookmark pinned with
  | nil => exact Nat.le_of_eq h
  | cons step rest ih =>
      cases step with
      | child => exact ih h
      | node test =>
          obtain ⟨position, hlt, _, _, hrest⟩ := h
          exact Nat.le_trans (ih hrest) (Nat.le_of_lt hlt)

/-- A step that is no combinator takes a position, so the landing is lower. -/
theorem Lands.lt (h : Lands passes steps bookmark pinned landing)
    (hnode : steps.all Step.isChild = false) : landing < bookmark := by
  induction steps generalizing bookmark pinned with
  | nil => contradiction
  | cons step rest ih =>
      cases step with
      | child => exact ih h hnode
      | node test =>
          obtain ⟨position, hlt, _, _, hrest⟩ := h
          exact Nat.lt_of_le_of_lt hrest.le hlt

/-- Combinators take no position, so they land where they begin. -/
theorem lands_iff_of_all_isChild (h : steps.all Step.isChild = true) :
    Lands passes steps bookmark pinned landing ↔ landing = bookmark := by
  induction steps generalizing pinned with
  | nil => rfl
  | cons step rest ih =>
      cases step with
      | child => exact ih h
      | node test => contradiction

/-- A placement of steps in a row is one of the first steps down to a landing
and one of the others below it. -/
theorem fits_append_iff (hsecond : second ≠ [])
    (hpinned : ∀ bookmark pinned,
      Fits passes second bookmark pinned ↔ Fits passes second bookmark true) :
    Fits passes (first ++ second) bookmark pinned ↔
      ∃ landing, Lands passes first bookmark pinned landing ∧
        Fits passes second landing true := by
  induction first generalizing bookmark pinned with
  | nil =>
      rw [List.nil_append, hpinned]
      constructor
      · intro h
        exact ⟨bookmark, rfl, h⟩
      · rintro ⟨_, rfl, h⟩
        exact h
  | cons step rest ih =>
      cases step with
      | child => exact ih
      | node test =>
          -- The second list is not empty, so this step is not the last one.
          have hlast : rest ++ second ≠ [] := by simp [hsecond]
          simp only [List.cons_append, Fits, hlast, or_false, ih]
          constructor
          · rintro ⟨position, hlt, hpin, htest, landing, hlands, hfits⟩
            exact ⟨landing, ⟨position, hlt, hpin, htest, hlands⟩, hfits⟩
          · rintro ⟨landing, ⟨position, hlt, hpin, htest, hlands⟩, hfits⟩
            exact ⟨position, hlt, hpin, htest, landing, hlands, hfits⟩

/-- The last step is placed right below the landing of the others. -/
theorem fits_concat_node_iff {test : NodeTest} :
    Fits passes (first ++ [.node test]) bookmark pinned ↔
      ∃ position, Lands passes first bookmark pinned (position + 1) ∧
        passes test position = true := by
  have hlast : ∀ bookmark pinned, Fits passes [.node test] bookmark pinned ↔
      ∃ position, position + 1 = bookmark ∧ passes test position = true := by
    intro bookmark pinned
    constructor
    · rintro ⟨position, _, hpin, htest, _⟩
      exact ⟨position, hpin (Or.inr rfl), htest⟩
    · rintro ⟨position, rfl, htest⟩
      exact ⟨position, Nat.lt_succ_self _, fun _ => rfl, htest, trivial⟩
  rw [fits_append_iff (List.cons_ne_nil _ _)
    (fun bookmark pinned => (hlast bookmark pinned).trans (hlast bookmark true).symm)]
  constructor
  · rintro ⟨landing, hlands, hfits⟩
    obtain ⟨position, rfl, htest⟩ := (hlast landing true).mp hfits
    exact ⟨position, hlands, htest⟩
  · rintro ⟨position, hlands, htest⟩
    exact ⟨position + 1, hlands, (hlast _ true).mpr ⟨position, rfl, htest⟩⟩

/-- A placement knows of a test nothing but where it holds below the
bookmark. -/
theorem fits_congr
    (h : ∀ test, Step.node test ∈ steps → ∀ position < bookmark,
      passes test position = other test position) :
    Fits passes steps bookmark pinned ↔ Fits other steps bookmark pinned := by
  induction steps generalizing bookmark pinned with
  | nil => rfl
  | cons step rest ih =>
      cases step with
      | child => exact ih fun test htest => h test (List.mem_cons_of_mem _ htest)
      | node test =>
          have hbelow : ∀ position < bookmark,
              (Fits passes rest position false ↔ Fits other rest position false) := by
            intro position hlt
            refine ih fun test htest lower hlower => ?_
            exact h test (List.mem_cons_of_mem _ htest) lower (Nat.lt_trans hlower hlt)
          constructor
          · rintro ⟨position, hlt, hpin, htest, hfits⟩
            rw [h test List.mem_cons_self position hlt] at htest
            exact ⟨position, hlt, hpin, htest, (hbelow position hlt).mp hfits⟩
          · rintro ⟨position, hlt, hpin, htest, hfits⟩
            rw [← h test List.mem_cons_self position hlt] at htest
            exact ⟨position, hlt, hpin, htest, (hbelow position hlt).mpr hfits⟩

/-- A descent can be moved along with the tests between landing and bookmark. -/
theorem lands_shift (distance : Nat)
    (h : ∀ test position, landing ≤ position → position < bookmark →
      passes test (position + distance) = other test position) :
    Lands passes steps (bookmark + distance) pinned (landing + distance) ↔
      Lands other steps bookmark pinned landing := by
  induction steps generalizing bookmark pinned with
  | nil => exact Nat.add_right_cancel_iff
  | cons step rest ih =>
      cases step with
      | child => exact ih h
      | node test =>
          have hbelow : ∀ position < bookmark,
              (Lands passes rest (position + distance) false (landing + distance) ↔
                Lands other rest position false landing) :=
            fun position hlt =>
              ih fun test lower hle hlower => h test lower hle (Nat.lt_trans hlower hlt)
          constructor
          · rintro ⟨position, hlt, hpin, htest, hlands⟩
            -- No step stands below the landing, so the position can be moved back.
            obtain ⟨lower, rfl⟩ : ∃ lower, position = lower + distance :=
              ⟨position - distance, by have := hlands.le; omega⟩
            have hlower : lower < bookmark := by omega
            have hlands := (hbelow lower hlower).mp hlands
            rw [h test lower hlands.le hlower] at htest
            exact ⟨lower, hlower, fun hp => by have := hpin hp; omega, htest, hlands⟩
          · rintro ⟨position, hlt, hpin, htest, hlands⟩
            rw [← h test position hlands.le hlt] at htest
            exact ⟨position + distance, by omega, fun hp => by have := hpin hp; omega, htest,
              (hbelow position hlt).mpr hlands⟩

end Search
end LinkedPath
