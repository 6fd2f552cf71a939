import LinkedPath.Trace.Basic

/-!
# Walking a document

The walk visits the nodes of a document in document order and hands out a trace
for each.  It keeps two stacks: the containers whose children are still to be
visited, and the entries of the nodes around the current place.  An array has a
frame but no entry, so the two stacks have different heights.
-/

namespace LinkedPath

mutual

/-- The number of steps that the walk spends on a value at most. -/
def Json.weight : Json → Nat
  | .array items => 2 + Json.itemsWeight items
  | .object members => 2 + Json.membersWeight members
  | _ => 1

/-- The number of steps for all items. -/
def Json.itemsWeight : List Json → Nat
  | [] => 0
  | item :: rest => Json.weight item + Json.itemsWeight rest

/-- The number of steps for all members. -/
def Json.membersWeight : List (String × Json) → Nat
  | [] => 0
  | (_, value) :: rest => Json.weight value + Json.membersWeight rest

end

namespace Walk

/-- The place of a child in its container. -/
inductive Place
  | key (key : String)
  | index (position : Nat)
  deriving DecidableEq, Repr

/-- A container whose children are being visited. -/
structure Frame where
  /-- The container has no entry of its own. -/
  grouping : Bool
  /-- The key that the items of an array take over. -/
  key : String
  /-- The tokens that lead to the container, the last one first. -/
  trail : List String
  /-- The children still to be visited. -/
  rest : List (Place × Json)

/-- The children of a value of some kind, in document order. -/
def children (kind : Kind) (value : Json) : List (Place × Json) :=
  match kind, value with
  | .object, .object members => members.map fun (key, value) => (.key key, value)
  | .array, .array items => items.zipIdx.map fun (item, position) => (.index position, item)
  | _, _ => []

/-- The frame of a container of which no child has been visited. -/
def Frame.enter (kind : Kind) (key : String) (trail : List String) (value : Json) : Frame :=
  { grouping := kind = .array, key, trail, rest := children kind value }

/-- The key that a child is visited under. -/
def Frame.keyOf (frame : Frame) : Place → String
  | .key key => key
  | .index _ => frame.key

/-- The position of a child in an array. -/
def Place.index? : Place → Option Nat
  | .key _ => none
  | .index position => some position

/-- The token for a child. -/
def Place.token : Place → String
  | .key name => name
  | .index position => Pointer.indexToken position

/-- The state of a walk. -/
structure State where
  /-- The containers that are not finished, innermost first. -/
  frames : List Frame
  /-- The entries of the nodes around the current place, innermost first. -/
  path : Trace
  /-- The number of the next visit. -/
  nextId : Nat

/-- The entry of the document itself. -/
def rootEntry (document : Json) : Entry :=
  { id := 0
    kind := Kind.of Keyword.document document
    key := Keyword.document
    index? := none
    trail := [] }

/-- The state after the visit of the document itself. -/
def State.start (document : Json) : State :=
  { frames := [Frame.enter (Kind.of Keyword.document document) Keyword.document [] document]
    path := [rootEntry document]
    nextId := 1 }

/-- One step of the walk: the trace that it hands out, if any, and the next
state.  There is no step when no container is left. -/
def State.step? (state : State) : Option (Option Trace × State) :=
  match state.frames with
  | [] => none
  | frame :: below =>
      match frame.rest with
      | [] =>
          let path := if frame.grouping then state.path else state.path.tail
          some (none, { state with frames := below, path })
      | (place, value) :: rest =>
          let key := frame.keyOf place
          let trail := place.token :: frame.trail
          let kind := Kind.of key value
          let frames := { frame with rest } :: below
          match kind with
          | .array =>
              some (none, { state with frames := Frame.enter kind key trail value :: frames })
          | _ =>
              let entry := { id := state.nextId, kind, key, index? := place.index?, trail }
              let trace := entry :: state.path
              let nextId := state.nextId + 1
              match kind with
              | .leaf => some (some trace, { frames, path := state.path, nextId })
              | _ =>
                  some (some trace,
                    { frames := Frame.enter kind key trail value :: frames
                      path := trace
                      nextId })

/-! ## The walk ends -/

/-- The number of steps for all children of a list. -/
def childrenWeight (rest : List (Place × Json)) : Nat :=
  rest.foldr (fun child total => child.2.weight + total) 0

/-- The number of steps that are left at most. -/
def State.weight (state : State) : Nat :=
  state.frames.foldr (fun frame total => 1 + childrenWeight frame.rest + total) 0

theorem weight_pos (value : Json) : 0 < value.weight := by
  cases value <;> simp only [Json.weight] <;> omega

theorem childrenWeight_members (members : List (String × Json)) :
    childrenWeight (members.map fun (key, value) => (Place.key key, value)) =
      Json.membersWeight members := by
  induction members with
  | nil => rfl
  | cons entry rest ih =>
      obtain ⟨key, value⟩ := entry
      simp only [childrenWeight, List.map_cons, List.foldr_cons, Json.membersWeight] at *
      omega

theorem childrenWeight_items (items : List Json) (first : Nat) :
    childrenWeight ((items.zipIdx first).map fun (item, position) => (Place.index position, item)) =
      Json.itemsWeight items := by
  induction items generalizing first with
  | nil => rfl
  | cons item rest ih =>
      have := ih (first + 1)
      simp only [childrenWeight, List.zipIdx_cons, List.map_cons, List.foldr_cons,
        Json.itemsWeight] at *
      omega

/-- Entering a container and leaving it again costs what the container
weighs beyond its children. -/
theorem childrenWeight_of_ne_leaf (key : String) (value : Json) (h : Kind.of key value ≠ .leaf) :
    childrenWeight (children (Kind.of key value) value) + 2 = value.weight := by
  cases value with
  | array items =>
      by_cases hkey : key = Keyword.type
      · simp [Kind.of, hkey] at h
      · simp only [Kind.of, hkey, if_false, children, Json.weight]
        rw [childrenWeight_items]
        omega
  | object members =>
      simp only [Kind.of, children, Json.weight]
      rw [childrenWeight_members]
      omega
  | _ => simp [Kind.of] at h

/-- Every step leaves less to do. -/
theorem State.weight_step {state next : State} {visit : Option Trace}
    (h : state.step? = some (visit, next)) : next.weight < state.weight := by
  unfold step? at h
  split at h
  · contradiction
  · rename_i frame below hframes
    have hstate : state.weight = 1 + childrenWeight frame.rest +
        below.foldr (fun frame total => 1 + childrenWeight frame.rest + total) 0 := by
      simp [weight, hframes]
    split at h
    · cases h
      simp only [weight] at *
      omega
    · rename_i place value rest hrest
      have hpos := weight_pos value
      have hsum : childrenWeight frame.rest = value.weight + childrenWeight rest := by
        simp [childrenWeight, hrest]
      simp only at h
      split at h
      · rename_i hkind
        cases h
        have hopen := childrenWeight_of_ne_leaf (frame.keyOf place) value (by simp [hkind])
        simp only [weight, Frame.enter, List.foldr_cons] at *
        omega
      · rename_i hnotArray
        split at h
        · cases h
          simp only [weight, List.foldr_cons] at *
          omega
        · rename_i hnotLeaf
          cases h
          have hopen := childrenWeight_of_ne_leaf (frame.keyOf place) value hnotLeaf
          simp only [weight, Frame.enter, List.foldr_cons] at *
          omega

/-- Go on from a state.  The visitor sees every trace that is handed out and
may end the walk. -/
def run {σ : Type} (visit : σ → Trace → ForInStep σ) (seen : σ) (state : State) : σ :=
  match _hstep : state.step? with
  | none => seen
  | some (none, next) => run visit seen next
  | some (some trace, next) =>
      match visit seen trace with
      | .done seen => seen
      | .yield seen => run visit seen next
termination_by state.weight
decreasing_by
  · exact State.weight_step _hstep
  · exact State.weight_step _hstep

end Walk

/-- Walk a document from its root.  The visitor sees the trace of every node in
document order and may end the walk. -/
def walk {σ : Type} (document : Json) (visit : σ → Trace → ForInStep σ) (seen : σ) : σ :=
  match visit seen [Walk.rootEntry document] with
  | .done seen => seen
  | .yield seen => Walk.run visit seen (Walk.State.start document)

/-- The traces of all nodes of a document, in document order. -/
def traces (document : Json) : List Trace :=
  (walk document (fun seen trace => .yield (trace :: seen)) []).reverse

end LinkedPath
