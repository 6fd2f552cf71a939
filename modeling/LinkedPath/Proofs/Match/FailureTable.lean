import LinkedPath.Proofs.Match.Placement

/-!
# The failure table never hides a placement

The search shares one table between all its branches.  A table is sound when
every marked pair of a step and a bookmark has no placement below it; the flag
of the step is not part of the pair, because `pinnedAt` reads it off the steps.

All that is needed of an observer is an invariant that knows the table to be
sound and that is kept by the deeds of a search (`Observer.Invariant`).  Then
every attempt decides its goal and keeps the invariant (`decides_explore`).  For
the table alone soundness is such an invariant, and the empty table is sound, so
a search answers whether there is a placement (`run_iff`).
-/

namespace LinkedPath
namespace Search

variable {passes : NodeTest → Nat → Bool} {steps : List Step} {length : Nat}

/-- The flag that the step of a number is tried with: the first step and every
step behind a combinator are pinned. -/
def pinnedAt (steps : List Step) : Nat → Bool
  | 0 => true
  | number + 1 => decide (steps[number]? = some .child)

theorem pinnedAt_behind_child {number : Nat} (h : steps[number]? = some .child) :
    pinnedAt steps (number + 1) = true := by
  simp [pinnedAt, h]

theorem pinnedAt_behind_node {number : Nat} {test : NodeTest}
    (h : steps[number]? = some (.node test)) : pinnedAt steps (number + 1) = false := by
  simp [pinnedAt, h]

/-- Every marked pair of the table has no placement. -/
structure FailureTable.Sound (passes : NodeTest → Nat → Bool) (steps : List Step) (length : Nat)
    (table : FailureTable) : Prop where
  /-- A row has a slot for every bookmark. -/
  width_eq : table.width = length + 1
  not_fits : ∀ {number bookmark}, bookmark ≤ length →
    table.contains number bookmark = true →
      ¬ Fits passes (steps.drop number) bookmark (pinnedAt steps number)

/-! ## The table -/

/-- Different pairs have different slots. -/
theorem FailureTable.slot_injective {table : FailureTable} {number bookmark other below : Nat}
    (hbookmark : bookmark < table.width) (hbelow : below < table.width)
    (h : table.slot number bookmark = table.slot other below) :
    number = other ∧ bookmark = below := by
  have hwidth : 0 < table.width := by omega
  unfold slot at h
  rw [Nat.mul_comm number, Nat.mul_comm other] at h
  have hrow : (table.width * number + bookmark) / table.width = number := by
    rw [Nat.mul_add_div hwidth, Nat.div_eq_of_lt hbookmark, Nat.add_zero]
  have hother : (table.width * other + below) / table.width = other := by
    rw [Nat.mul_add_div hwidth, Nat.div_eq_of_lt hbelow, Nat.add_zero]
  -- A slot is a number with two digits, so it determines its row.
  have hnumber : number = other := by
    rw [← hrow, h, hother]
  subst hnumber
  exact ⟨rfl, by omega⟩

theorem FailureTable.contains_empty (rows width number bookmark : Nat) :
    (FailureTable.empty rows width).contains number bookmark = false := by
  rw [contains, empty, Array.getD_eq_getD_getElem?, Array.getElem?_replicate]
  split <;> rfl

/-- A pair is marked after a marking only if it was before or is the marked
one. -/
theorem FailureTable.contains_mark {table : FailureTable} {number bookmark other below : Nat}
    (h : (table.mark number bookmark).contains other below = true) :
    table.slot number bookmark = table.slot other below ∨ table.contains other below = true := by
  by_cases hslot : table.slot number bookmark = table.slot other below
  · exact Or.inl hslot
  · right
    have hsame : (table.mark number bookmark).slot other below = table.slot other below := rfl
    rw [contains, hsame, mark, Array.getD_eq_getD_getElem?,
      Array.getElem?_setIfInBounds_ne hslot] at h
    rw [contains, Array.getD_eq_getD_getElem?]
    exact h

theorem FailureTable.sound_empty :
    (FailureTable.empty steps.length (length + 1)).Sound passes steps length where
  width_eq := rfl
  not_fits := by
    intro number bookmark _ h
    rw [contains_empty] at h
    contradiction

/-- A pair without a placement may be marked. -/
theorem FailureTable.Sound.mark {table : FailureTable}
    (h : table.Sound passes steps length) {number bookmark : Nat} (hbookmark : bookmark ≤ length)
    (hfits : ¬ Fits passes (steps.drop number) bookmark (pinnedAt steps number)) :
    (table.mark number bookmark).Sound passes steps length where
  width_eq := h.width_eq
  not_fits := by
    intro other below hbelow hmarked
    rcases contains_mark hmarked with hslot | hbefore
    · have hwidth := h.width_eq
      obtain ⟨rfl, rfl⟩ := slot_injective (by omega) (by omega) hslot
      exact hfits
    · exact h.not_fits hbelow hbefore

/-! ## What an observer knows -/

/-- What is true of everything that a search does with a pair, under a flag. -/
structure Justified (passes : NodeTest → Nat → Bool) (steps : List Step) (length : Nat)
    (deed : Deed) (number bookmark : Nat) (pinned : Bool) : Prop where
  bookmark_le : bookmark ≤ length
  /-- The flag of a step is read off the steps. -/
  pinned_eq : pinned = pinnedAt steps number
  /-- Behind the last step there is nothing to ask for. -/
  number_lt : deed ≠ .call → number < steps.length
  /-- Only a pair without a placement gets a mark. -/
  not_fits : deed = .mark → ¬ Fits passes (steps.drop number) bookmark pinned

section

variable {State : Type} {observer : Observer State} {good : State → Prop}
variable {number bookmark : Nat} {pinned : Bool}

/-- In good states the table is sound, and whatever a search does leads from good
states to good states. -/
structure Observer.Invariant (observer : Observer State) (passes : NodeTest → Nat → Bool)
    (steps : List Step) (length : Nat) (good : State → Prop) : Prop where
  sound : ∀ {state}, good state → (observer.table state).Sound passes steps length
  note : ∀ {state deed number bookmark pinned}, good state →
    Justified passes steps length deed number bookmark pinned →
      good (observer.note deed number bookmark pinned state)

/-- In a good state the attempt answers whether the goal holds, and it hands on a
good state. -/
def Decides (good : State → Prop) (attempt : Attempt State) (goal : Prop) : Prop :=
  ∀ state, good state → ((attempt state).1 = true ↔ goal) ∧ good (attempt state).2

/-- Soundness is an invariant of the table alone. -/
theorem invariant_plain : Observer.plain.Invariant passes steps length
    (FailureTable.Sound passes steps length) where
  sound := id
  note := by
    intro table deed number bookmark pinned htable hdeed
    cases deed with
    | call | ask => exact htable
    | mark => exact htable.mark hdeed.bookmark_le (hdeed.pinned_eq ▸ hdeed.not_fits rfl)

/-! ## The search -/

/-- Trying positions from the bookmark downwards finds one whenever there is
one. -/
theorem decides_nearest {attempt : Nat → Attempt State} {goal : Nat → Prop}
    (h : ∀ position < bookmark, Decides good (attempt position) (goal position)) :
    Decides good (nearest attempt bookmark) (∃ position < bookmark, goal position) := by
  induction bookmark with
  | zero =>
      intro state hstate
      exact ⟨by simp [nearest], hstate⟩
  | succ bookmark ih =>
      intro state hstate
      obtain ⟨hanswer, hgood⟩ := h bookmark (by omega) state hstate
      rw [nearest]
      split
      · rename_i next hattempt
        rw [hattempt] at hanswer hgood
        have hgoal : goal bookmark := hanswer.mp rfl
        exact ⟨⟨fun _ => ⟨bookmark, by omega, hgoal⟩, fun _ => rfl⟩, hgood⟩
      · -- The nearest position has failed, so only the others count from here on.
        rename_i next hattempt
        rw [hattempt] at hanswer hgood
        have hno : ¬ goal bookmark := fun hgoal => by simpa using hanswer.mpr hgoal
        have hbelow := ih (fun position hposition => h position (by omega)) next hgood
        refine ⟨hbelow.1.trans ⟨?_, ?_⟩, hbelow.2⟩
        · rintro ⟨position, hposition, hgoal⟩
          exact ⟨position, by omega, hgoal⟩
        · rintro ⟨position, hposition, hgoal⟩
          have hne : position ≠ bookmark := by
            rintro rfl
            exact hno hgoal
          exact ⟨position, by omega, hgoal⟩

/-- An attempt that is made only under a condition. -/
theorem decides_ite {attempt : Attempt State} {goal : Prop} (condition : Bool)
    (h : Decides good attempt goal) :
    Decides good (fun state => if condition then attempt state else (false, state))
      (condition = true ∧ goal) := by
  intro state hstate
  cases condition with
  | false => exact ⟨by simp, hstate⟩
  | true => simpa using h state hstate

/-- An attempt at a pair that asks the table first and marks the pair when it
fails. -/
theorem decides_memo (hinvariant : observer.Invariant passes steps length good)
    {rest : List Step} (hrest : steps.drop number = rest) (hnumber : number < steps.length)
    (hbookmark : bookmark ≤ length) {attempt : Attempt State}
    (h : Decides good attempt (Fits passes rest bookmark (pinnedAt steps number))) :
    Decides good (memo observer number bookmark (pinnedAt steps number) attempt)
      (Fits passes rest bookmark (pinnedAt steps number)) := by
  subst hrest
  intro state hstate
  have hasked : good (observer.note .ask number bookmark (pinnedAt steps number) state) :=
    hinvariant.note hstate ⟨hbookmark, rfl, fun _ => hnumber, nofun⟩
  rw [memo]
  split
  · -- A marked pair fails at once, and that is the right answer.
    rename_i hmarked
    have hno := (hinvariant.sound hasked).not_fits hbookmark hmarked
    exact ⟨⟨nofun, fun hfits => absurd hfits hno⟩, hasked⟩
  · obtain ⟨hanswer, hgood⟩ := h _ hasked
    split
    · rename_i next hattempt
      rw [hattempt] at hanswer hgood
      exact ⟨hanswer, hgood⟩
    · -- The attempt decides its goal, so its failure justifies the mark.
      rename_i next hattempt
      rw [hattempt] at hanswer hgood
      have hno : ¬ Fits passes (steps.drop number) bookmark (pinnedAt steps number) :=
        fun hfits => by simpa using hanswer.mpr hfits
      exact ⟨hanswer, hinvariant.note hgood ⟨hbookmark, rfl, fun _ => hnumber, fun _ => hno⟩⟩

/-- A pinned step has one position to try, any other step has all below the
bookmark. -/
theorem decides_candidates {attempt : Nat → Attempt State} {goal : Nat → Prop} {below : Nat}
    {must : Prop} (hmust : pinned = true ↔ must)
    (h : ∀ position < below + 1, Decides good (attempt position) (goal position)) :
    Decides good
      (fun state => if pinned then attempt below state else nearest attempt (below + 1) state)
      (∃ position, position < below + 1 ∧ (must → position + 1 = below + 1) ∧
        goal position) := by
  intro state hstate
  rw [← hmust]
  cases pinned with
  | false => simpa using decides_nearest h state hstate
  | true =>
      obtain ⟨hanswer, hgood⟩ := h below (by omega) state hstate
      refine ⟨hanswer.trans ⟨fun hgoal => ⟨below, by omega, by simp, hgoal⟩, ?_⟩, hgood⟩
      rintro ⟨position, _, hposition, hgoal⟩
      obtain rfl : position = below := by simpa using hposition rfl
      exact hgoal

theorem drop_succ_of_drop {step : Step} {rest : List Step} (h : steps.drop number = step :: rest) :
    steps[number]? = some step ∧ steps.drop (number + 1) = rest := by
  constructor
  · rw [← List.head?_drop, h]
    rfl
  · rw [← List.tail_drop, h]
    rfl

/-- Placing the steps from a number on decides whether they can be placed.
The induction is on these steps; the table speaks of all steps, so it may have
been filled by any other branch. -/
theorem decides_explore (hinvariant : observer.Invariant passes steps length good)
    {rest : List Step} (hrest : steps.drop number = rest) (hbookmark : bookmark ≤ length) :
    Decides good (explore observer passes rest number bookmark (pinnedAt steps number))
      (Fits passes rest bookmark (pinnedAt steps number)) := by
  induction rest generalizing number bookmark with
  | nil =>
      intro state hstate
      exact ⟨by simp [explore, Fits],
        hinvariant.note hstate ⟨hbookmark, rfl, absurd rfl, nofun⟩⟩
  | cons step rest ih =>
      intro state hstate
      have hcalled : good (observer.note .call number bookmark (pinnedAt steps number) state) :=
        hinvariant.note hstate ⟨hbookmark, rfl, absurd rfl, nofun⟩
      obtain ⟨hstep, hdrop⟩ := drop_succ_of_drop hrest
      cases step with
      | child =>
          have hnext := ih hdrop hbookmark _ hcalled
          rw [pinnedAt_behind_child hstep] at hnext
          exact hnext
      | node test =>
          cases bookmark with
          | zero => exact ⟨by simp [explore, Fits], hcalled⟩
          | succ below =>
              have hattempt : ∀ position < below + 1, Decides good
                  (fun state =>
                    if passes test position then
                      explore observer passes rest (number + 1) position false state
                    else (false, state))
                  (passes test position = true ∧ Fits passes rest position false) := by
                intro position hposition
                have hnext := @ih (number + 1) position hdrop (by omega)
                rw [pinnedAt_behind_node hstep] at hnext
                exact decides_ite (passes test position) hnext
              -- The flag of the pair is read off the steps, never off the branch.
              have hmust : (pinnedAt steps number || rest.isEmpty) = true ↔
                  pinnedAt steps number = true ∨ rest = [] := by
                rw [Bool.or_eq_true, List.isEmpty_iff]
              have hcandidates := decides_candidates hmust hattempt
              have hnumber : number < steps.length := (List.getElem?_eq_some_iff.mp hstep).1
              exact decides_memo hinvariant hrest hnumber hbookmark hcandidates _ hcalled

end

/-- A search answers whether there is a placement with the first step on the
end of the chain. -/
theorem run_iff : run passes steps length = true ↔ Fits passes steps length true :=
  (decides_explore invariant_plain List.drop_zero (Nat.le_refl length) _
    FailureTable.sound_empty).1

end Search
end LinkedPath
