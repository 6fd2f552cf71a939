import LinkedPath.Match.Search

/-!
# Placements of steps

What a search for a placement looks for, said without a search.  A placement
gives every node step of a list a position; the positions decrease along the
list, every test holds at its position, and some steps are pinned: they have to
take the position right below the one before.  `Fits` says by recursion on the
steps that there is a placement below a bookmark, and `fits_iff` says that it
does, so the search need only be compared with `Fits`.
-/

namespace LinkedPath
namespace Search

/-- A placement of steps below a bookmark.  The positions of combinators do
not matter. -/
structure Placement (passes : NodeTest → Nat → Bool) (steps : List Step) (bookmark : Nat)
    (pinned : Bool) (position : Nat → Nat) : Prop where
  /-- Every test holds at its position. -/
  passes : ∀ {i test}, steps[i]? = some (.node test) → passes test (position i) = true
  /-- Every position is below the bookmark. -/
  below : ∀ {i test}, steps[i]? = some (.node test) → position i < bookmark
  /-- A later step stands at a lower position. -/
  decreasing : ∀ {i j test other}, steps[i]? = some (.node test) →
    steps[j]? = some (.node other) → i < j → position j < position i
  /-- The first node step stands right below the bookmark when it is pinned,
  when it follows a combinator and when it is the last step. -/
  first : ∀ {i test}, steps[i]? = some (.node test) →
    (∀ k < i, steps[k]? = some .child) →
    (pinned = true ∨ 0 < i ∨ i + 1 = steps.length) → position i + 1 = bookmark
  /-- Any other node step stands right below the one before when it follows a
  combinator and when it is the last step. -/
  adjacent : ∀ {i j test other}, steps[i]? = some (.node test) →
    steps[j]? = some (.node other) → i < j →
    (∀ k, i < k → k < j → steps[k]? = some .child) →
    (i + 1 < j ∨ j + 1 = steps.length) → position j + 1 = position i

/-- There is a placement of the steps below a bookmark, by recursion on the
steps. -/
def Fits (passes : NodeTest → Nat → Bool) : List Step → Nat → Bool → Prop
  | [], _, _ => True
  | .child :: rest, bookmark, _ => Fits passes rest bookmark true
  | .node test :: rest, bookmark, pinned =>
      ∃ position, position < bookmark ∧
        (pinned = true ∨ rest = [] → position + 1 = bookmark) ∧
        passes test position = true ∧ Fits passes rest position false

variable {passes : NodeTest → Nat → Bool}

/-- Positions for a list of steps, given the position of its first step and
positions for the others. -/
def consPosition (head : Nat) (tail : Nat → Nat) : Nat → Nat
  | 0 => head
  | i + 1 => tail i

/-- Behind a combinator the first step is pinned. -/
theorem Placement.of_child {rest : List Step} {bookmark : Nat} {pinned : Bool}
    {position : Nat → Nat} (h : Placement passes (.child :: rest) bookmark pinned position) :
    Placement passes rest bookmark true fun i => position (i + 1) where
  passes := fun hi => h.passes (by simpa using hi)
  below := fun hi => h.below (by simpa using hi)
  decreasing := fun hi hj hlt =>
    h.decreasing (by simpa using hi) (by simpa using hj) (by omega)
  first := by
    intro i test hi hchild _
    -- In the longer list a combinator stands before the step, so it is pinned there too.
    refine h.first (by simpa using hi) ?_ (Or.inr (Or.inl (by omega)))
    intro k hk
    cases k with
    | zero => rfl
    | succ k => simpa using hchild k (by omega)
  adjacent := by
    intro i j test other hi hj hlt hchild hpin
    refine h.adjacent (by simpa using hi) (by simpa using hj) (by omega) ?_ ?_
    · intro k hik hkj
      cases k with
      | zero => omega
      | succ k => simpa using hchild k (by omega) (by omega)
    · simp only [List.length_cons]
      omega

theorem Placement.child {rest : List Step} {bookmark : Nat} {position : Nat → Nat}
    (h : Placement passes rest bookmark true position) (pinned : Bool) :
    Placement passes (.child :: rest) bookmark pinned (consPosition bookmark position) where
  passes := by
    intro i test hi
    cases i with
    | zero => simp at hi
    | succ i => exact h.passes (by simpa using hi)
  below := by
    intro i test hi
    cases i with
    | zero => simp at hi
    | succ i => exact h.below (by simpa using hi)
  decreasing := by
    intro i j test other hi hj hlt
    cases i with
    | zero => simp at hi
    | succ i =>
        cases j with
        | zero => omega
        | succ j => exact h.decreasing (by simpa using hi) (by simpa using hj) (by omega)
  first := by
    intro i test hi hchild _
    cases i with
    | zero => simp at hi
    | succ i =>
        refine h.first (by simpa using hi) ?_ (Or.inl rfl)
        intro k hk
        simpa using hchild (k + 1) (by omega)
  adjacent := by
    intro i j test other hi hj hlt hchild hpin
    cases i with
    | zero => simp at hi
    | succ i =>
        cases j with
        | zero => omega
        | succ j =>
            simp only [List.length_cons] at hpin
            refine h.adjacent (by simpa using hi) (by simpa using hj) (by omega) ?_ (by omega)
            intro k hik hkj
            simpa using hchild (k + 1) (by omega) (by omega)

/-- The other steps are placed below the first one, of which they know nothing
but its position. -/
theorem Placement.of_node {test : NodeTest} {rest : List Step} {bookmark : Nat} {pinned : Bool}
    {position : Nat → Nat}
    (h : Placement passes (.node test :: rest) bookmark pinned position) :
    Placement passes rest (position 0) false fun i => position (i + 1) where
  passes := fun hi => h.passes (by simpa using hi)
  below := fun hi => h.decreasing (i := 0) rfl (by simpa using hi) (by omega)
  decreasing := fun hi hj hlt =>
    h.decreasing (by simpa using hi) (by simpa using hj) (by omega)
  first := by
    intro i other hi hchild hpin
    -- The first of the other steps is adjacent to the head of the list.
    refine h.adjacent (i := 0) rfl (by simpa using hi) (by omega) ?_ ?_
    · intro k hk hki
      cases k with
      | zero => omega
      | succ k => simpa using hchild k (by omega)
    · simp only [List.length_cons]
      simp only [Bool.false_eq_true, false_or] at hpin
      omega
  adjacent := by
    intro i j first other hi hj hlt hchild hpin
    refine h.adjacent (by simpa using hi) (by simpa using hj) (by omega) ?_ ?_
    · intro k hik hkj
      cases k with
      | zero => omega
      | succ k => simpa using hchild k (by omega) (by omega)
    · simp only [List.length_cons]
      omega

theorem Placement.node {test : NodeTest} {rest : List Step} {bookmark head : Nat}
    {pinned : Bool} {position : Nat → Nat} (h : Placement passes rest head false position)
    (htest : passes test head = true) (hhead : head < bookmark)
    (hpin : pinned = true ∨ rest = [] → head + 1 = bookmark) :
    Placement passes (.node test :: rest) bookmark pinned (consPosition head position) where
  passes := by
    intro i other hi
    cases i with
    | zero =>
        obtain rfl : test = other := by simpa using hi
        exact htest
    | succ i => exact h.passes (by simpa using hi)
  below := by
    intro i other hi
    cases i with
    | zero => exact hhead
    | succ i =>
        have hlt := h.below (i := i) (by simpa using hi)
        exact Nat.lt_trans hlt hhead
  decreasing := by
    intro i j first other hi hj hlt
    cases j with
    | zero => omega
    | succ j =>
        cases i with
        | zero => exact h.below (by simpa using hj)
        | succ i => exact h.decreasing (by simpa using hi) (by simpa using hj) (by omega)
  first := by
    intro i other hi hchild hfirst
    cases i with
    | zero =>
        apply hpin
        rcases hfirst with hpinned | hlt | hlast
        · exact Or.inl hpinned
        · omega
        · exact Or.inr (List.length_eq_zero_iff.mp (by simpa using hlast))
    | succ i =>
        -- The head of the list is no combinator, so nothing behind it comes first.
        have hzero := hchild 0 (by omega)
        simp at hzero
  adjacent := by
    intro i j first other hi hj hlt hchild hadjacent
    simp only [List.length_cons] at hadjacent
    cases j with
    | zero => omega
    | succ j =>
        cases i with
        | zero =>
            -- Adjacent to the head is what comes first in the rest.
            refine h.first (by simpa using hj) ?_ (Or.inr (by omega))
            intro k hk
            simpa using hchild (k + 1) (by omega) (by omega)
        | succ i =>
            refine h.adjacent (by simpa using hi) (by simpa using hj) (by omega) ?_ (by omega)
            intro k hik hkj
            simpa using hchild (k + 1) (by omega) (by omega)

/-- The recursion finds a placement exactly when there is one. -/
theorem fits_iff (steps : List Step) (bookmark : Nat) (pinned : Bool) :
    Fits passes steps bookmark pinned ↔
      ∃ position, Placement passes steps bookmark pinned position := by
  -- The bookmark and the flag are what a step tells the next one.
  induction steps generalizing bookmark pinned with
  | nil =>
      constructor
      · intro _
        exact ⟨id, by simp, by simp, by simp, by simp, by simp⟩
      · intro _
        trivial
  | cons step rest ih =>
      cases step with
      | child =>
          rw [Fits, ih]
          constructor
          · rintro ⟨position, h⟩
            exact ⟨_, h.child pinned⟩
          · rintro ⟨position, h⟩
            exact ⟨_, h.of_child⟩
      | node test =>
          rw [Fits]
          constructor
          · rintro ⟨head, hhead, hpin, htest, hrest⟩
            obtain ⟨position, h⟩ := (ih head false).mp hrest
            exact ⟨_, h.node htest hhead hpin⟩
          · rintro ⟨position, h⟩
            refine ⟨position 0, h.below rfl, ?_, h.passes rfl, (ih _ _).mpr ⟨_, h.of_node⟩⟩
            intro hpin
            refine h.first rfl (by omega) ?_
            rcases hpin with hpinned | hrest
            · exact Or.inl hpinned
            · simp [hrest]

end Search
end LinkedPath
