import LinkedPath.Proofs.Match.FailureTable

/-!
# Every moment of a search

A search keeps nothing but its answer, so what it does with its table on the way
has to be put down while it goes on.  The observer `recorder` does so: every
call, every question to the table and every mark becomes a moment, with the
table as it is right before.  No observer changes what a search does
(`shadows_explore`).  What is true of every moment, `Moment.Orderly`, is an
invariant of the recorder (`invariant_recorder`), so the search keeps it: the
flag of a call is read off the steps, the slot of a pair lies inside the table,
and no marked pair has a placement.
-/

namespace LinkedPath
namespace Search

/-! ## Recording a search -/

/-- One thing that a search does. -/
structure Moment where
  deed : Deed
  /-- The number of the step. -/
  number : Nat
  bookmark : Nat
  /-- The flag that the step is tried with. -/
  pinned : Bool
  /-- The table right before. -/
  table : FailureTable

/-- A table, and the moments up to now, the last one first. -/
structure Record where
  table : FailureTable
  past : List Moment

/-- The observer that puts down every moment. -/
def recorder : Observer Record where
  table := Record.table
  note := fun deed number bookmark pinned record =>
    { table := record.table.after deed number bookmark
      past := ⟨deed, number, bookmark, pinned, record.table⟩ :: record.past }
  table_note := fun _ _ _ _ _ => rfl

/-- The search for a placement on a chain of some length, with its record. -/
def recordedRun (passes : NodeTest → Nat → Bool) (steps : List Step) (length : Nat) :
    Bool × Record :=
  explore recorder passes steps 0 length true
    { table := FailureTable.empty steps.length (length + 1), past := [] }

/-- Everything that the search does, the last thing first. -/
def moments (passes : NodeTest → Nat → Bool) (steps : List Step) (length : Nat) : List Moment :=
  (recordedRun passes steps length).2.past

/-! ## No observer changes a search -/

section

variable {State : Type} {observer : Observer State}

/-- With an observer the attempt answers as it does with the table alone, and the
observer holds the same table after it. -/
def Shadows (observer : Observer State) (observed : Attempt State)
    (attempt : Attempt FailureTable) : Prop :=
  ∀ state, Prod.map id observer.table (observed state) = attempt (observer.table state)

theorem shadows_nearest {observed : Nat → Attempt State} {attempt : Nat → Attempt FailureTable}
    (h : ∀ position, Shadows observer (observed position) (attempt position)) (bookmark : Nat) :
    Shadows observer (nearest observed bookmark) (nearest attempt bookmark) := by
  induction bookmark with
  | zero =>
      intro state
      rfl
  | succ bookmark ih =>
      intro state
      rw [nearest, nearest, ← h bookmark state]
      cases observed bookmark state with
      | mk answer next =>
          cases answer with
          | true => rfl
          | false => exact ih next

theorem shadows_ite {observed other : Attempt State}
    {attempt alternative : Attempt FailureTable} (condition : Bool)
    (h : Shadows observer observed attempt) (hother : Shadows observer other alternative) :
    Shadows observer (fun state => if condition then observed state else other state)
      (fun table => if condition then attempt table else alternative table) := by
  intro state
  cases condition with
  | true => exact h state
  | false => exact hother state

theorem shadows_memo {observed : Attempt State} {attempt : Attempt FailureTable}
    (h : Shadows observer observed attempt) (number bookmark : Nat) (pinned : Bool) :
    Shadows observer (memo observer number bookmark pinned observed)
      (memo .plain number bookmark pinned attempt) := by
  intro state
  have hasked : observer.table (observer.note .ask number bookmark pinned state) =
      observer.table state := observer.table_note ..
  have hattempt := h (observer.note .ask number bookmark pinned state)
  rw [hasked] at hattempt
  have hplain : Observer.plain.note .ask number bookmark pinned (observer.table state) =
      observer.table state := rfl
  have htable : Observer.plain.table (observer.table state) = observer.table state := rfl
  rw [memo, memo, hasked, hplain, htable]
  split
  · exact congrArg (Prod.mk false) hasked
  · rw [← hattempt]
    cases observed (observer.note .ask number bookmark pinned state) with
    | mk answer next =>
        cases answer with
        | true => rfl
        | false => exact congrArg (Prod.mk false) (observer.table_note .mark ..)

/-- Placing steps with an observer is placing them without. -/
theorem shadows_explore (observer : Observer State) (passes : NodeTest → Nat → Bool)
    (rest : List Step) (number bookmark : Nat) (pinned : Bool) :
    Shadows observer (explore observer passes rest number bookmark pinned)
      (place passes rest number bookmark pinned) := by
  induction rest generalizing number bookmark pinned with
  | nil =>
      intro state
      exact congrArg (Prod.mk true) (observer.table_note .call number bookmark pinned state)
  | cons step rest ih =>
      intro state
      have hcalled := observer.table_note .call number bookmark pinned state
      cases step with
      | child =>
          have hnext := ih (number + 1) bookmark true
            (observer.note .call number bookmark pinned state)
          rw [hcalled] at hnext
          exact hnext
      | node test =>
          cases bookmark with
          | zero => exact congrArg (Prod.mk false) hcalled
          | succ below =>
              have hfailed : Shadows observer (fun state => (false, state))
                  fun table => (false, table) := fun _ => rfl
              have hattempt := fun position =>
                shadows_ite (passes test position) (ih (number + 1) position false) hfailed
              have hcandidates := shadows_ite (pinned || rest.isEmpty) (hattempt below)
                (shadows_nearest hattempt (below + 1))
              have hmemo := shadows_memo hcandidates number (below + 1) pinned
                (observer.note .call number (below + 1) pinned state)
              rw [hcalled] at hmemo
              exact hmemo

end

/-! ## What is true of every moment -/

variable {passes : NodeTest → Nat → Bool} {steps : List Step} {length : Nat}

/-- A sound table that has a slot for every pair. -/
structure FailureTable.Intact (passes : NodeTest → Nat → Bool) (steps : List Step) (length : Nat)
    (table : FailureTable) : Prop extends FailureTable.Sound passes steps length table where
  size_eq : table.marks.size = steps.length * (length + 1)

/-- What is true of every moment of a search: there was reason for the deed, and
nothing was wrong with the table before it. -/
structure Moment.Orderly (passes : NodeTest → Nat → Bool) (steps : List Step) (length : Nat)
    (moment : Moment) : Prop
    extends Justified passes steps length moment.deed moment.number moment.bookmark moment.pinned
    where
  table : moment.table.Intact passes steps length

/-- All moments up to now are orderly, and so is the table. -/
structure Record.Orderly (passes : NodeTest → Nat → Bool) (steps : List Step) (length : Nat)
    (record : Record) : Prop where
  table : record.table.Intact passes steps length
  past : ∀ moment ∈ record.past, moment.Orderly passes steps length

/-- The slot of a pair is inside the table, which is row after row. -/
theorem FailureTable.Intact.slot_lt {table : FailureTable}
    (h : table.Intact passes steps length) {number bookmark : Nat}
    (hnumber : number < steps.length) (hbookmark : bookmark ≤ length) :
    table.slot number bookmark < table.marks.size := by
  rw [slot, h.width_eq, h.size_eq]
  calc
    number * (length + 1) + bookmark < number * (length + 1) + (length + 1) := by omega
    _ = (number + 1) * (length + 1) := (Nat.succ_mul number (length + 1)).symm
    _ ≤ steps.length * (length + 1) := Nat.mul_le_mul_right (length + 1) hnumber

theorem FailureTable.intact_empty :
    (FailureTable.empty steps.length (length + 1)).Intact passes steps length where
  toSound := FailureTable.sound_empty
  size_eq := Array.size_replicate

/-- A mark changes no size. -/
theorem FailureTable.size_after (table : FailureTable) (deed : Deed) (number bookmark : Nat) :
    (table.after deed number bookmark).marks.size = table.marks.size := by
  cases deed with
  | call | ask => rfl
  | mark => exact Array.size_setIfInBounds

/-- Orderly records stay orderly, whatever a search does. -/
theorem invariant_recorder : recorder.Invariant passes steps length
    (Record.Orderly passes steps length) where
  sound := fun h => h.table.toSound
  note := by
    intro record deed number bookmark pinned h hdeed
    refine ⟨⟨invariant_plain.note h.table.toSound hdeed, ?_⟩, ?_⟩
    · exact (record.table.size_after deed number bookmark).trans h.table.size_eq
    · exact List.forall_mem_cons.mpr ⟨⟨hdeed, h.table⟩, h.past⟩

/-- Every moment of a search is orderly. -/
theorem orderly_of_mem_moments {moment : Moment} (h : moment ∈ moments passes steps length) :
    moment.Orderly passes steps length :=
  (decides_explore invariant_recorder List.drop_zero (Nat.le_refl length) _
    { table := FailureTable.intact_empty, past := by simp }).2.past moment h

/-- A marked slot never hides a placement.  The recorded search is the search,
which answers whether there is a placement; and at every moment of it the
bookmark is within the chain, the slot that is asked for or marked is inside the
table and belongs to one pair only, a mark is made only for steps that have no
placement below the bookmark under the flag of that moment, all moments of a step
carry the same flag, and whatever the table has marked has no placement under the
flag of any of them. -/
theorem marks_hide_no_placement (passes : NodeTest → Nat → Bool) (steps : List Step)
    (length : Nat) :
    Prod.map id Record.table (recordedRun passes steps length) =
        place passes steps 0 length true (FailureTable.empty steps.length (length + 1)) ∧
      (run passes steps length = true ↔
        ∃ position, Placement passes steps length true position) ∧
      ∀ moment ∈ moments passes steps length,
        moment.bookmark ≤ length ∧
        (moment.deed ≠ .call →
          moment.table.slot moment.number moment.bookmark < moment.table.marks.size) ∧
        (∀ {number bookmark other below}, bookmark ≤ length → below ≤ length →
          moment.table.slot number bookmark = moment.table.slot other below →
            number = other ∧ bookmark = below) ∧
        (moment.deed = .mark → ¬ ∃ position,
          Placement passes (steps.drop moment.number) moment.bookmark moment.pinned position) ∧
        ∀ other ∈ moments passes steps length,
          (other.number = moment.number → other.pinned = moment.pinned) ∧
          ∀ bookmark ≤ length, moment.table.contains other.number bookmark = true →
            ¬ ∃ position, Placement passes (steps.drop other.number) bookmark other.pinned
              position := by
  refine ⟨shadows_explore recorder passes steps 0 length true _, run_iff.trans (fits_iff ..), ?_⟩
  intro moment hmoment
  have h := orderly_of_mem_moments hmoment
  refine ⟨h.bookmark_le, fun hdeed => h.table.slot_lt (h.number_lt hdeed) h.bookmark_le, ?_, ?_,
    ?_⟩
  · intro number bookmark other below hbookmark hbelow hslot
    have hwidth := h.table.width_eq
    exact FailureTable.slot_injective (by omega) (by omega) hslot
  · intro hdeed
    rw [← fits_iff]
    exact h.not_fits hdeed
  · intro other hother
    have hflag := (orderly_of_mem_moments hother).pinned_eq
    refine ⟨fun hnumber => ?_, fun bookmark hbookmark hmarked => ?_⟩
    · rw [hflag, hnumber, h.pinned_eq]
    · rw [← fits_iff, hflag]
      exact h.table.not_fits hbookmark hmarked

/-- A test that nothing passes is reached over several ways, and the search asks
for a failure that it has marked before. -/
theorem marks_hide_no_placement_sharedFailure :
    let passes : NodeTest → Nat → Bool := fun test _ => test.name?.isNone
    let steps : List Step :=
      [.node .any, .node .any, .node .any, .node (.named "none"), .node .any]
    ∃ moment ∈ moments passes steps 5,
      moment.deed = .ask ∧ moment.table.contains moment.number moment.bookmark = true ∧
        ¬ ∃ position,
          Placement passes (steps.drop moment.number) moment.bookmark moment.pinned position := by
  intro passes steps
  have hfound : ∃ moment ∈ moments passes steps 5,
      moment.deed = .ask ∧ moment.table.contains moment.number moment.bookmark = true := by
    decide
  obtain ⟨moment, hmoment, hask, hmarked⟩ := hfound
  obtain ⟨_, _, hall⟩ := marks_hide_no_placement passes steps 5
  obtain ⟨hbookmark, _, _, _, hothers⟩ := hall moment hmoment
  obtain ⟨_, hhidden⟩ := hothers moment hmoment
  exact ⟨moment, hmoment, hask, hmarked, hhidden _ hbookmark hmarked⟩

end Search
end LinkedPath
