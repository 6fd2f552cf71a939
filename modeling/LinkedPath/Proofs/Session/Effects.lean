import LinkedPath.Proofs.Session.FirstAndAll
import LinkedPath.Proofs.Session.Lineages

/-!
# Effects of commands

What a command can do to the handles of a session is said once (`Effect`): it
gives and takes names, it adds a lineage for each handle that it opens, and it
may change the flags of the lineage of the handle that it is about, but of no
other.  Every command has its effect or fails (`acts_perform`).

The giving and taking of names does not look at what has the names
(`Command.map_rename`), so it can be followed with anything in the place of
handles.
-/

namespace LinkedPath

/-! ## Commands -/

namespace Command

/-- The name of the handle that a command is about. -/
def target? : Command → Option String
  | .clone node _ | .drop node | .release node | .json node | .caching node _
  | .query node _ _ | .queryAll node _ _ | .check node => some node
  | .factory _ _ _ | .document _ _ _ | .build _ _ _ | .compile _ _ | .tally _ => none

/-- The name of the handle that a question is for, and its path. -/
def question? : Command → Option (String × String)
  | .query node path _ | .queryAll node path _ => some (node, path)
  | _ => none

/-- The names that a command has for new things. -/
def names {α : Type} (command : Command) (new : List α) : List (String × α) :=
  match command with
  | .document _ _ name | .build _ _ name | .query _ _ (some name) =>
      new.map fun thing => (name, thing)
  | .queryAll _ _ (some name) =>
      new.zipIdx.map fun (thing, place) => (name ++ "." ++ toString place, thing)
  | _ => []

/-- What a command does to things under names, given the new things that it
opens.  The things are handles, or what is known of handles. -/
def rename {α : Type} (command : Command) (new : List α) (entries : List (String × α)) :
    List (String × α) :=
  match command with
  | .clone node name =>
      match entries.lookup node with
      | some thing => Keyed.put name thing entries
      | none => entries
  | .drop node | .release node => Keyed.erase node entries
  | _ => Keyed.putAll (command.names new) entries

variable {α β : Type}

theorem map_names (command : Command) (f : α → β) (new : List α) :
    (command.names new).map (Prod.map id f) = command.names (new.map f) := by
  unfold names
  split <;> simp [List.zipIdx_map, Function.comp_def]

/-- A command gives and takes names whatever they stand for. -/
theorem map_rename (command : Command) (f : α → β) (new : List α)
    (entries : List (String × α)) :
    (command.rename new entries).map (Prod.map id f) =
      command.rename (new.map f) (entries.map (Prod.map id f)) := by
  cases command with
  | clone node name =>
      simp only [rename, Keyed.lookup_map]
      cases entries.lookup node with
      | none => rfl
      | some thing => exact Keyed.map_put f name thing entries
  | drop node | release node => exact Keyed.map_erase f node entries
  | factory | document | build | json | caching | query | queryAll | compile | tally | check =>
      simp only [rename]
      rw [Keyed.map_putAll, map_names]

end Command

/-- The handles that come with an outcome. -/
def Outcome.opened : Outcome → List Handle
  | selection found? => Selection.opened found?
  | selections found => found.opened
  | _ => []

/-- The number of handles that a command has opened. -/
def Command.count : Command → Outcome → Nat
  | .document _ _ _, _ | .build _ _ _, _ => 1
  | _, outcome => outcome.opened.length

/-! ## What a command does -/

/-- What a command does that does not fail: it gives and takes names, it adds a
lineage for each handle that it opens, it may change the flags of the lineage of
the handle that it is about, and it stores traces only where they are kept. -/
structure Effect (session : Session) (command : Command) (outcome : Outcome) (next : Session)
    (opened : List Handle) : Prop where
  length : opened.length = command.count outcome
  nodes : next.nodes = command.rename opened session.nodes
  size : next.workspace.lineages.size = session.workspace.lineages.size + opened.length
  number : ∀ place child, opened[place]? = some child →
    child.lineage = session.workspace.lineages.size + place
  old : ∀ handle, handle.lineage < session.workspace.lineages.size →
    next.workspace.flags handle ≠ session.workspace.flags handle →
    ∃ target asked, command.target? = some target ∧ session.node target = .ok asked ∧
      handle.lineage = asked.lineage
  tidy : session.workspace.Tidy → next.workspace.Tidy

/-- A command fails, or it has its effect. -/
inductive Acts (session : Session) (command : Command) : Except Fault (Outcome × Session) → Prop
  | ok {outcome : Outcome} {next : Session} {opened : List Handle}
      (h : Effect session command outcome next opened) : Acts session command (.ok (outcome, next))
  | error (fault : Fault) : Acts session command (.error fault)

section Acts

variable {session next : Session} {command : Command} {outcome : Outcome} {handle : Handle}

theorem Acts.bind {α : Type} {input : Except Fault α}
    {rest : α → Except Fault (Outcome × Session)}
    (h : ∀ value, input = .ok value → Acts session command (rest value)) :
    Acts session command (input >>= rest) := by
  cases input with
  | error fault => exact .error fault
  | ok value => exact h value rfl

/-- Handles are opened in a workspace with the same lineages. -/
theorem Effect.of_adds {before : Workspace} {caching : Bool} {opened : List Handle}
    (hlineages : before.lineages = session.workspace.lineages)
    (hadds : before.Adds next.workspace caching opened)
    (hlength : opened.length = command.count outcome)
    (hnodes : next.nodes = command.rename opened session.nodes) :
    Effect session command outcome next opened where
  length := hlength
  nodes := hnodes
  size := by
    rw [hadds.size, hlineages]
  number := by
    rw [← hlineages]
    exact hadds.number
  old handle hlt hchanged := by
    rw [← hlineages] at hlt
    rw [hadds.old handle hlt] at hchanged
    exact absurd (Workspace.flags_of_lineages_eq hlineages handle) hchanged
  tidy htidy := hadds.tidy (htidy.of_lineages_eq hlineages)

/-- Nothing happens to the lineages. -/
theorem Effect.of_lineages_eq (hcount : command.count outcome = 0)
    (hnodes : next.nodes = command.rename [] session.nodes)
    (hlineages : next.workspace.lineages = session.workspace.lineages) :
    Effect session command outcome next [] :=
  .of_adds hlineages (Workspace.adds_nil next.workspace false) hcount.symm hnodes

/-- The keeping of traces is turned on or off. -/
theorem Effect.of_switched {target : String} (hnode : session.node target = .ok handle)
    (hlt : handle.lineage < session.workspace.lineages.size) (enabled : Bool) :
    let switched := session.workspace.setCaching handle enabled
    Effect session (.caching target enabled) (.flag (switched.isCaching handle))
      { session with workspace := switched } [] where
  length := rfl
  nodes := rfl
  size := Workspace.size_setCaching session.workspace handle enabled
  number place child hchild := by simp at hchild
  old other _ hchanged := by
    rw [Workspace.flags_setCaching hlt] at hchanged
    split at hchanged
    · rename_i hsame
      exact ⟨target, handle, rfl, hnode, hsame⟩
    · exact absurd rfl hchanged
  tidy htidy := htidy.setCaching hlt enabled

/-- A question is asked of a handle, and an answer is delivered. -/
theorem Effect.of_asked {path target : String} {opened : List Handle}
    (htarget : command.target? = some target) (hnode : session.node target = .ok handle)
    (hlt : handle.lineage < session.workspace.lineages.size)
    (hadds : (session.workspace.listed handle path).Adds next.workspace
      (session.workspace.isCaching handle) opened)
    (hlength : opened.length = command.count outcome)
    (hnodes : next.nodes = command.rename opened session.nodes) :
    Effect session command outcome next opened where
  length := hlength
  nodes := hnodes
  size := by
    rw [hadds.size, Workspace.size_listed]
  number := by
    rw [← Workspace.size_listed session.workspace handle path]
    exact hadds.number
  old other hother hchanged := by
    rw [← Workspace.size_listed session.workspace handle path] at hother
    rw [hadds.old other hother, Workspace.flags_listed hlt] at hchanged
    split at hchanged
    · -- What has changed is the lineage whose traces were listed.
      rename_i hasked
      exact ⟨target, handle, htarget, hnode, hasked.1⟩
    · exact absurd rfl hchanged
  tidy htidy := hadds.tidy (htidy.listed hlt path)

/-! ### Questions -/

theorem nodes_withNodes (session : Session) (name : String) (handles : List Handle) :
    (session.withNodes name handles).nodes =
      Keyed.putAll
        (handles.zipIdx.map fun (handle, place) => (name ++ "." ++ toString place, handle))
        session.nodes := by
  rw [Session.withNodes, Keyed.putAll, List.foldl_map]
  generalize handles.zipIdx = numbered
  induction numbered generalizing session with
  | nil => rfl
  | cons entry rest ih => exact ih _

theorem nodes_keepSelection (session : Session) (node path : String) (found? : Option Selection)
    (name? : Option String) :
    (session.keepSelection found? name?).nodes =
      (Command.query node path name?).rename (Selection.opened found?) session.nodes := by
  rcases found? with _ | value | handle
  · cases name? <;> rfl
  · cases name? <;> rfl
  · cases name? <;> rfl

theorem nodes_keepSelections (session : Session) (node path : String) (found : Selections)
    (name? : Option String) :
    (session.keepSelections found name?).nodes =
      (Command.queryAll node path name?).rename found.opened session.nodes := by
  cases found with
  | values items => cases name? <;> rfl
  | nodes handles =>
      cases name? with
      | none => rfl
      | some name => exact nodes_withNodes session name handles

theorem workspace_keepSelection (session : Session) (found? : Option Selection)
    (name? : Option String) :
    (session.keepSelection found? name?).workspace = session.workspace := by
  rcases found? with _ | value | handle
  · rfl
  · rfl
  · cases name? <;> rfl

theorem workspace_keepSelections (session : Session) (found : Selections)
    (name? : Option String) :
    (session.keepSelections found name?).workspace = session.workspace := by
  cases found with
  | values items => rfl
  | nodes handles =>
      cases name? with
      | none => rfl
      | some name =>
          rw [Session.keepSelections, Session.withNodes]
          generalize handles.zipIdx = numbered
          induction numbered generalizing session with
          | nil => rfl
          | cons entry rest ih => exact ih _

theorem target?_of_question? {node path : String} (h : command.question? = some (node, path)) :
    command.target? = some node := by
  cases command <;> simp_all [Command.question?, Command.target?]

/-- A question fails for its handle or not at all.  The answer is delivered in
the workspace in which the traces have been listed. -/
theorem perform_question {node path : String} (session : Session)
    (h : command.question? = some (node, path)) :
    ∃ ask : Handle → Outcome × Session, session.perform command = (session.node node).map ask ∧
      ∀ handle : Handle, handle.lineage < session.workspace.lineages.size →
        (session.workspace.listed handle path).Adds (ask handle).2.workspace
          (session.workspace.isCaching handle) (ask handle).1.opened ∧
        (ask handle).1.opened.length = command.count (ask handle).1 ∧
        (ask handle).2.nodes = command.rename (ask handle).1.opened session.nodes := by
  cases command with
  | query target text name? =>
      obtain ⟨rfl, rfl⟩ : target = node ∧ text = path := by simpa [Command.question?] using h
      refine ⟨fun handle =>
        let asked := session.workspace.query handle text
        (.selection asked.1,
          { session with workspace := asked.2 }.keepSelection asked.1 name?), ?_, ?_⟩
      · rw [Session.perform]
        cases session.node target <;> rfl
      · intro handle hlt
        refine ⟨?_, rfl, nodes_keepSelection _ target text _ name?⟩
        rw [workspace_keepSelection]
        exact Workspace.adds_query hlt text
  | queryAll target text name? =>
      obtain ⟨rfl, rfl⟩ : target = node ∧ text = path := by simpa [Command.question?] using h
      refine ⟨fun handle =>
        let asked := session.workspace.queryAll handle text
        (.selections asked.1,
          { session with workspace := asked.2 }.keepSelections asked.1 name?), ?_, ?_⟩
      · rw [Session.perform]
        cases session.node target <;> rfl
      · intro handle hlt
        refine ⟨?_, rfl, nodes_keepSelections _ target text _ name?⟩
        rw [workspace_keepSelections]
        exact Workspace.adds_queryAll hlt text
  | factory | document | build | clone | drop | release | json | caching | compile | tally | check =>
      contradiction

/-- A question for a handle with a lineage has its effect, and it opens the
handles that come with the answer. -/
theorem exists_effect_of_question {node path : String}
    (hquestion : command.question? = some (node, path))
    (hnode : session.node node = .ok handle)
    (hlt : handle.lineage < session.workspace.lineages.size) :
    ∃ outcome next, session.perform command = .ok (outcome, next) ∧
      (session.workspace.listed handle path).Adds next.workspace
        (session.workspace.isCaching handle) outcome.opened ∧
      Effect session command outcome next outcome.opened := by
  obtain ⟨ask, hperform, hask⟩ := perform_question session hquestion
  obtain ⟨hadds, hlength, hnodes⟩ := hask handle hlt
  rw [hnode] at hperform
  exact ⟨(ask handle).1, (ask handle).2, hperform, hadds,
    .of_asked (target?_of_question? hquestion) hnode hlt hadds hlength hnodes⟩

/-! ### All commands -/

/-- Every command fails or has its effect, when all handles with a name have a
lineage. -/
theorem acts_perform
    (hlt : ∀ name handle, session.node name = .ok handle →
      handle.lineage < session.workspace.lineages.size) (command : Command) :
    Acts session command (session.perform command) := by
  have hasked : ∀ node path, command.question? = some (node, path) →
      Acts session command (session.perform command) := by
    intro node path hquestion
    cases hnode : session.node node with
    | error fault =>
        obtain ⟨ask, hperform, -⟩ := perform_question session hquestion
        rw [hperform, hnode]
        exact .error fault
    | ok handle =>
        obtain ⟨outcome, next, hperform, -, heffect⟩ :=
          exists_effect_of_question hquestion hnode (hlt node handle hnode)
        rw [hperform]
        exact .ok heffect
  cases command with
  | query node path name? => exact hasked node path rfl
  | queryAll node path name? => exact hasked node path rfl
  | document factory document name =>
      refine Acts.bind fun factory hfactory => ?_
      refine Acts.bind fun document hdocument => ?_
      have hadds := Workspace.adds_newHandle session.workspace document factory.compiler
        factory.caching
      exact .ok (.of_adds rfl hadds rfl rfl)
  | build document context name =>
      refine Acts.bind fun document hdocument => ?_
      refine Acts.bind fun context hcontext => ?_
      let made := session.workspace.factory context true
      have hlineages : made.2.lineages = session.workspace.lineages := rfl
      have hadds := Workspace.adds_newHandle made.2 document made.1.compiler true
      exact .ok (.of_adds hlineages hadds rfl rfl)
  | clone node name =>
      refine Acts.bind fun handle hnode => ?_
      refine .ok (.of_lineages_eq rfl ?_ rfl)
      rw [Command.rename, Session.lookup_of_node hnode]
      rfl
  | caching node enabled =>
      refine Acts.bind fun handle hnode => ?_
      exact .ok (.of_switched hnode (hlt node handle hnode) enabled)
  | factory context caching name =>
      exact Acts.bind fun context hcontext => .ok (.of_lineages_eq rfl rfl rfl)
  | drop node => exact .ok (.of_lineages_eq rfl rfl rfl)
  | release node | json node | check node =>
      exact Acts.bind fun handle hnode => .ok (.of_lineages_eq rfl rfl rfl)
  | compile factory source =>
      exact Acts.bind fun factory hfactory => .ok (.of_lineages_eq rfl rfl rfl)
  | tally factory => exact Acts.bind fun factory hfactory => .ok (.of_lineages_eq rfl rfl rfl)

end Acts

end LinkedPath
