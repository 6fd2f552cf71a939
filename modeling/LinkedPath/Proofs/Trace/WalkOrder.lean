import LinkedPath.Proofs.Trace.Chains

/-!
# The walk hands out document order

The walk keeps its frames and its path on two stacks of different heights.
`Walk.pending` says what both together still stand for: the chains that the
frames contribute, where leaving a frame takes a node off the path unless the
frame is that of a grouping array.  Every step hands out the first pending
chain or changes nothing about them (`pending_step`), so a run shows the
visitor the pending chains in order (`run_eq`).
-/

namespace LinkedPath

/-- Show traces to a visitor in turn until it ends the walk. -/
def showTraces {σ : Type} (visit : σ → Trace → ForInStep σ) : σ → List Trace → σ
  | seen, [] => seen
  | seen, trace :: rest =>
      match visit seen trace with
      | .done seen => seen
      | .yield seen => showTraces visit seen rest

/-- A visitor is shown some traces, goes on after each but the last one, and
either ends the walk with that one or goes on after it as well. -/
inductive Heard {σ : Type} (visit : σ → Trace → ForInStep σ) : σ → List Trace → σ → Bool → Prop
  | nothing (seen : σ) : Heard visit seen [] seen false
  | stop {seen last : σ} {trace : Trace} (h : visit seen trace = .done last) :
      Heard visit seen [trace] last true
  | goOn {seen next last : σ} {trace : Trace} {rest : List Trace} {stopped : Bool}
      (h : visit seen trace = .yield next) (hrest : Heard visit next rest last stopped) :
      Heard visit seen (trace :: rest) last stopped

/-- The visitor that also notes what it is shown. -/
def noting {σ : Type} (visit : σ → Trace → ForInStep σ) :
    σ × List Trace → Trace → ForInStep (σ × List Trace)
  | (seen, noted), trace =>
      match visit seen trace with
      | .done seen => .done (seen, noted ++ [trace])
      | .yield seen => .yield (seen, noted ++ [trace])

namespace Walk

/-- The spots that a frame still has to visit. -/
def Frame.spots (frame : Frame) : List Spot :=
  frame.rest.map (Spot.inside frame.key frame.trail)

/-- The chains that a walk still has to hand out. -/
def pending : List Frame → Chain → Nat → List Chain
  | [], _, _ => []
  | frame :: below, around, next =>
      let here := Chain.ofSpots around next frame.spots
      here ++ pending below (if frame.grouping then around else around.tail) (next + here.length)

theorem pending_cons_nil {frame : Frame} (below : List Frame) (around : Chain) (next : Nat)
    (h : frame.rest = []) :
    pending (frame :: below) around next =
      pending below (if frame.grouping then around else around.tail) next := by
  simp [pending, Frame.spots, h, Chain.ofSpots]

/-- The first spot of a frame comes before the rest of the frame. -/
theorem pending_cons_cons {frame : Frame} {place : Place} {value : Json}
    {rest : List (Place × Json)} (below : List Frame) (around : Chain) (next : Nat)
    (h : frame.rest = (place, value) :: rest) :
    pending (frame :: below) around next =
      Chain.ofSpot around next (Spot.inside frame.key frame.trail (place, value)) ++
        pending ({ frame with rest } :: below) around
          (next + (Chain.ofSpot around next
            (Spot.inside frame.key frame.trail (place, value))).length) := by
  simp only [pending, Frame.spots, h, List.map_cons, Chain.ofSpots, List.append_assoc,
    List.length_append, Nat.add_assoc]

/-- Entering a container puts its children in front of everything else. -/
theorem pending_enter (frames : List Frame) (around : Chain) (next : Nat) (spot : Spot) :
    pending (Frame.enter spot.kind spot.key spot.trail spot.value :: frames) around next =
      Chain.ofSpots around next spot.children ++
        pending frames (if spot.kind = .array then around else around.tail)
          (next + (Chain.ofSpots around next spot.children).length) := by
  simp [pending, Frame.enter, Frame.spots, Spot.children]

theorem step?_of_rest_nil {state : State} {frame : Frame} {below : List Frame}
    (hframes : state.frames = frame :: below) (hrest : frame.rest = []) :
    state.step? = some (none,
      { state with
        frames := below
        path := if frame.grouping then state.path else state.path.tail }) := by
  simp [State.step?, hframes, hrest]

/-- A step that takes up a child, by the kind of the child. -/
theorem step?_of_rest_cons {state : State} {frame : Frame} {below : List Frame} {place : Place}
    {value : Json} {rest : List (Place × Json)} {spot : Spot}
    (hframes : state.frames = frame :: below) (hrest : frame.rest = (place, value) :: rest)
    (hspot : spot = Spot.inside frame.key frame.trail (place, value)) :
    state.step? = some
      (match spot.kind with
        | .array => (none,
            { state with
              frames := Frame.enter spot.kind spot.key spot.trail spot.value ::
                { frame with rest } :: below })
        | .leaf =>
            (some (({ id := state.nextId, spot } : Visit).entry :: state.path),
              { frames := { frame with rest } :: below
                path := state.path
                nextId := state.nextId + 1 })
        | .object =>
            (some (({ id := state.nextId, spot } : Visit).entry :: state.path),
              { frames := Frame.enter spot.kind spot.key spot.trail spot.value ::
                  { frame with rest } :: below
                path := ({ id := state.nextId, spot } : Visit).entry :: state.path
                nextId := state.nextId + 1 })) := by
  have hkey : frame.keyOf place = spot.key := by rw [hspot]; cases place <;> rfl
  have hindex : place.index? = spot.index? := by rw [hspot]; cases place <;> rfl
  have htrail : place.token :: frame.trail = spot.trail := by rw [hspot]; cases place <;> rfl
  have hvalue : value = spot.value := by rw [hspot]; cases place <;> rfl
  have hkind : Kind.of spot.key spot.value = spot.kind := rfl
  simp only [State.step?, hframes, hrest, hkey, hindex, htrail, hvalue, hkind]
  cases hcase : spot.kind <;> simp [Visit.entry, hcase]

/-- A step hands out the first pending chain, or no chain, and leaves the other
pending chains as they are. -/
theorem pending_step {state next : State} {visit? : Option Trace} {around : Chain}
    (hpath : state.path = around.trace) (h : state.step? = some (visit?, next)) :
    ∃ handed above, visit?.toList = handed.map Chain.trace ∧ next.path = Chain.trace above ∧
      pending state.frames around state.nextId =
        handed ++ pending next.frames above next.nextId := by
  cases hframes : state.frames with
  | nil => simp [State.step?, hframes] at h
  | cons frame below =>
      cases hrest : frame.rest with
      | nil =>
          -- The frame is left, and its node with it unless it is a grouping array.
          rw [step?_of_rest_nil hframes hrest] at h
          cases h
          refine ⟨[], if frame.grouping then around else around.tail, rfl, ?_, ?_⟩
          · cases frame.grouping <;> simp [hpath, Chain.trace]
          · rw [pending_cons_nil below around _ hrest]
            rfl
      | cons child rest =>
          obtain ⟨place, value⟩ := child
          generalize hspot : Spot.inside frame.key frame.trail (place, value) = spot
          rw [step?_of_rest_cons hframes hrest hspot.symm] at h
          rw [pending_cons_cons below around _ hrest, hspot, Chain.ofSpot_eq]
          -- The kind of the child decides who pushes what; see `step?_of_rest_cons`.
          cases hkind : spot.kind with
          | array =>
              rw [hkind] at h
              cases h
              refine ⟨[], around, rfl, hpath, ?_⟩
              have henter := pending_enter ({ frame with rest } :: below) around state.nextId spot
              rw [hkind] at henter
              rw [henter]
              rfl
          | leaf =>
              rw [hkind] at h
              cases h
              refine ⟨[{ id := state.nextId, spot } :: around], around, ?_, hpath, rfl⟩
              simp [Chain.trace, hpath]
          | object =>
              rw [hkind] at h
              cases h
              refine ⟨[{ id := state.nextId, spot } :: around],
                { id := state.nextId, spot } :: around, ?_, ?_, ?_⟩
              · simp [Chain.trace, hpath]
              · simp [Chain.trace, hpath]
              · have henter := pending_enter ({ frame with rest } :: below)
                  ({ id := state.nextId, spot } :: around) (state.nextId + 1) spot
                rw [hkind] at henter
                rw [henter]
                simp [Nat.add_assoc, Nat.add_comm 1]

section Run

variable {σ : Type} {state : State}

/-- A run by its first step. -/
theorem run_step (visit : σ → Trace → ForInStep σ) (seen : σ) (state : State) :
    run visit seen state =
      match state.step? with
      | none => seen
      | some (none, next) => run visit seen next
      | some (some trace, next) =>
          match visit seen trace with
          | .done last => last
          | .yield later => run visit later next := by
  rw [run]
  split
  · rename_i hstep
    rw [hstep]
  · rename_i hstep
    rw [hstep]
  · rename_i trace next hstep
    cases hvisit : visit seen trace with
    | done last => simp [hstep, hvisit]
    | yield later => simp [hstep, hvisit]

theorem frames_eq_nil_of_step?_eq_none (h : state.step? = none) : state.frames = [] := by
  cases hframes : state.frames with
  | nil => rfl
  | cons frame below =>
      cases hrest : frame.rest with
      | nil => simp [step?_of_rest_nil hframes hrest] at h
      | cons child rest =>
          obtain ⟨place, value⟩ := child
          simp [step?_of_rest_cons hframes hrest rfl] at h

end Run

/-- A run shows the visitor the pending chains in order. -/
theorem run_eq {σ : Type} (visit : σ → Trace → ForInStep σ) (seen : σ) {state : State}
    {around : Chain} (hpath : state.path = around.trace) :
    run visit seen state =
      showTraces visit seen ((pending state.frames around state.nextId).map Chain.trace) := by
  -- The path and the chain change together, so the chain is general in the induction.
  induction seen, state using run.induct visit generalizing around with
  | case1 seen state hstep =>
      rw [run_step, hstep, frames_eq_nil_of_step?_eq_none hstep]
      rfl
  | case2 seen state next hstep ih =>
      obtain ⟨handed, above, hhanded, habove, hpending⟩ := pending_step hpath hstep
      obtain rfl : handed = [] := by simpa using hhanded.symm
      rw [run_step, hstep, hpending]
      exact ih habove
  | case3 seen state trace next hstep last hvisit =>
      obtain ⟨handed, above, hhanded, _, hpending⟩ := pending_step hpath hstep
      rw [run_step, hstep, hpending, List.map_append, ← hhanded]
      simp [hvisit, showTraces]
  | case4 seen state trace next hstep later hvisit ih =>
      obtain ⟨handed, above, hhanded, habove, hpending⟩ := pending_step hpath hstep
      rw [run_step, hstep, hpending, List.map_append, ← hhanded]
      simp [hvisit, showTraces, ih habove]

end Walk

theorem Chain.trace_root (document : Json) :
    Chain.trace (Chain.root document) = [Walk.rootEntry document] := rfl

/-- A walk shows the visitor the chains of all nodes in document order. -/
theorem walk_eq {σ : Type} (document : Json) (visit : σ → Trace → ForInStep σ) (seen : σ) :
    walk document visit seen =
      showTraces visit seen ((documentOrder document).map Chain.trace) := by
  have hpending : Walk.pending (Walk.State.start document).frames (Chain.root document) 1 =
      Chain.ofSpots (Chain.root document) 1 (Spot.root document).children := by
    have henter := Walk.pending_enter [] (Chain.root document) 1 (Spot.root document)
    rw [Walk.pending, List.append_nil] at henter
    exact henter
  rw [walk, documentOrder_eq, List.map_cons, showTraces, Chain.trace_root]
  cases visit seen [Walk.rootEntry document] with
  | done last => rfl
  | yield next =>
      have hpath : (Walk.State.start document).path = Chain.trace (Chain.root document) := rfl
      rw [← hpending]
      exact Walk.run_eq visit next hpath

theorem showTraces_collect (seen rest : List Trace) :
    showTraces (fun seen trace => .yield (trace :: seen)) seen rest = rest.reverse ++ seen := by
  induction rest generalizing seen with
  | nil => rfl
  | cons trace rest ih => simp [showTraces, ih]

/-- The listed traces are those of document order. -/
theorem traces_eq (document : Json) :
    traces document = (documentOrder document).map Chain.trace := by
  rw [traces, walk_eq, showTraces_collect, List.append_nil, List.reverse_reverse]

theorem exists_linked_of_mem_traces {document : Json} {trace : Trace}
    (h : trace ∈ traces document) : ∃ chain, Chain.Linked document chain ∧ chain.trace = trace := by
  rw [traces_eq] at h
  obtain ⟨chain, hchain, rfl⟩ := List.mem_map.mp h
  exact ⟨chain, Chain.linked_of_mem_documentOrder hchain, rfl⟩

/-- A visitor hears the traces up to the first one with which it ends the
walk, and notes exactly these. -/
theorem heard_showTraces {σ : Type} (visit : σ → Trace → ForInStep σ) (seen : σ)
    (noted rest : List Trace) :
    ∃ handed left stopped,
      rest = handed ++ left ∧
      Heard visit seen handed (showTraces visit seen rest) stopped ∧
      (stopped = false → left = []) ∧
      showTraces (noting visit) (seen, noted) rest =
        (showTraces visit seen rest, noted ++ handed) := by
  induction rest generalizing seen noted with
  | nil => exact ⟨[], [], false, rfl, Heard.nothing seen, fun _ => rfl, by simp [showTraces]⟩
  | cons trace rest ih =>
      cases hvisit : visit seen trace with
      | done last =>
          refine ⟨[trace], rest, true, rfl, ?_, by simp, ?_⟩
          · simpa [showTraces, hvisit] using Heard.stop hvisit
          · simp [showTraces, noting, hvisit]
      | yield next =>
          obtain ⟨handed, left, stopped, hrest, hheard, hleft, hnoted⟩ :=
            ih next (noted ++ [trace])
          refine ⟨trace :: handed, left, stopped, by rw [hrest]; rfl, ?_, hleft, ?_⟩
          · simpa [showTraces, hvisit] using Heard.goOn hvisit hheard
          · simp [showTraces, noting, hvisit, hnoted]

/-- The walk hands out the chains of document order.  The nodes are numbered in
order, every chain is complete down to the document, and what is below the node
of a chain is an earlier chain.  A visitor hears the chains up to the first one
with which it ends the walk, or all of them. -/
theorem walk_hands_out_documentOrder (document : Json) :
    traces document = (documentOrder document).map Chain.trace ∧
    (∀ i chain, (documentOrder document)[i]? = some chain →
      chain.nodeId? = some i ∧ Chain.Linked document chain ∧
        (0 < i → ∃ j < i, (documentOrder document)[j]? = some chain.tail)) ∧
    ∀ {σ : Type} (visit : σ → Trace → ForInStep σ) (seen : σ),
      ∃ handed left stopped,
        (documentOrder document).map Chain.trace = handed ++ left ∧
        Heard visit seen handed (walk document visit seen) stopped ∧
        (stopped = false → left = []) ∧
        walk document (noting visit) (seen, []) = (walk document visit seen, handed) := by
  refine ⟨traces_eq document, ?_, ?_⟩
  · intro i chain hchain
    have hid := (Chain.numbered_documentOrder document).nodeId?_of_getElem? hchain
    rw [Nat.zero_add] at hid
    refine ⟨hid, Chain.linked_of_mem_documentOrder (List.mem_of_getElem? hchain), ?_⟩
    intro hpos
    cases i with
    | zero => omega
    | succ i => exact Chain.tail_of_getElem?_documentOrder hchain
  · intro σ visit seen
    simp only [walk_eq]
    simpa using heard_showTraces visit seen [] ((documentOrder document).map Chain.trace)

/-- The items of nested arrays are numbered on and stand directly inside the
object that holds the arrays; an array of types is one node. -/
theorem walk_hands_out_documentOrder_nestedArrays :
    let document : Json := .object
      [("a", .array [.array [.object [("b", .null)]], .null]), (Keyword.type, .array [.string "T"])]
    (documentOrder document).map (List.map fun visit => (visit.id, visit.spot.key)) =
        [[(0, Keyword.document)], [(1, "a"), (0, Keyword.document)],
          [(2, "b"), (1, "a"), (0, Keyword.document)], [(3, "a"), (0, Keyword.document)],
          [(4, Keyword.type), (0, Keyword.document)]] ∧
      traces document = (documentOrder document).map Chain.trace ∧
      ∃ chain, (documentOrder document)[2]? = some chain ∧ chain.nodeId? = some 2 ∧
        Chain.Linked document chain ∧ ∃ j < 2, (documentOrder document)[j]? = some chain.tail := by
  intro document
  have hwalk := walk_hands_out_documentOrder document
  obtain ⟨chain, hchain⟩ : ∃ chain, (documentOrder document)[2]? = some chain := ⟨_, rfl⟩
  obtain ⟨hid, hlinked, hearlier⟩ := hwalk.2.1 2 chain hchain
  exact ⟨rfl, hwalk.1, chain, hchain, hid, hlinked, hearlier (by omega)⟩

end LinkedPath
