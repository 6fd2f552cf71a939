import LinkedPath.Proofs.Keyed
import LinkedPath.Proofs.Session.Upkeep

/-!
# Caches do not show

A session whose caches are in good order carries out every command like its
outline, which has no caches (`Coherent.follows_perform`).  So a run of commands
hands out what the outline hands out, and a question is answered by compiling
its selector and searching the traces of its document, whatever has been asked
before and whichever handles keep their traces.
-/

namespace LinkedPath

/-- The documents in a command have no object with a repeated key. -/
def Command.WellFormed : Command → Prop
  | .document _ (.ok value) _ => value.WellFormed
  | .build (.ok value) _ _ => value.WellFormed
  | _ => True

namespace Session

def handles (session : Session) : List Handle := session.nodes.map Prod.snd

/-- The caches are in good order for all named handles, and the factories have
compilers. -/
structure Coherent (session : Session) : Prop where
  faithful : session.workspace.Faithful
  serves : session.workspace.Serves session.handles
  factories : ∀ entry ∈ session.factories, entry.2.compiler < session.workspace.compilers.size

theorem coherent_empty : empty.Coherent where
  faithful number := Compiler.faithful_default
  serves := ⟨by simp [handles, empty], by simp [handles, empty], by simp [handles, empty],
    by simp [handles, empty], by simp [handles, empty]⟩
  factories := by simp [empty]

variable {session : Session} {handle : Handle} {workspace : Workspace}

theorem mem_handles {name : String} (h : session.nodes.lookup name = some handle) :
    handle ∈ session.handles :=
  List.mem_map.mpr ⟨(name, handle), Keyed.mem_of_lookup_eq_some h, rfl⟩

/-! ## Changes of the workspace -/

theorem view_of_keeps (hkeeps : session.workspace.Keeps workspace)
    (hlt : handle.compiler < session.workspace.compilers.size) :
    workspace.view handle = session.workspace.view handle := by
  rw [Workspace.view, Workspace.view, hkeeps.2 handle.compiler hlt]

theorem Coherent.withWorkspace (h : session.Coherent) (hfaithful : workspace.Faithful)
    (hserves : workspace.Serves session.handles) (hkeeps : session.workspace.Keeps workspace) :
    ({ session with workspace } : Session).Coherent where
  faithful := hfaithful
  serves := hserves
  factories entry hmem := Nat.lt_of_lt_of_le (h.factories entry hmem) hkeeps.1

/-- The outline does not see a change that keeps all compilers. -/
theorem Coherent.outline_withWorkspace (h : session.Coherent)
    (hkeeps : session.workspace.Keeps workspace) :
    ({ session with workspace } : Session).outline = session.outline := by
  -- A name is seen through the compiler of its handle or factory, and that is kept.
  have hnodes : session.nodes.map (Prod.map id workspace.view) =
      session.nodes.map (Prod.map id session.workspace.view) := by
    apply List.map_congr_left
    rintro ⟨name, handle⟩ hmem
    have hlt := h.serves.compiler_lt handle (List.mem_map.mpr ⟨(name, handle), hmem, rfl⟩)
    rw [Prod.map_apply, Prod.map_apply, view_of_keeps hkeeps hlt]
  have hfactories : session.factories.map
        (Prod.map id fun factory => (workspace.compiler factory.compiler).expander) =
      session.factories.map
        (Prod.map id fun factory => (session.workspace.compiler factory.compiler).expander) := by
    apply List.map_congr_left
    rintro ⟨name, factory⟩ hmem
    rw [Prod.map_apply, Prod.map_apply, hkeeps.2 factory.compiler (h.factories _ hmem)]
  rw [outline, outline]
  simp only
  rw [hnodes, hfactories]

/-! ## Changes of names -/

theorem outline_withNode (session : Session) (name : String) (handle : Handle) :
    (session.withNode name handle).outline =
      session.outline.withNode name (session.workspace.view handle) := by
  rw [outline, outline, withNode, Outline.withNode]
  simp only
  rw [Keyed.map_put]

theorem outline_withoutNode (session : Session) (name : String) :
    (session.withoutNode name).outline = session.outline.withoutNode name := by
  rw [outline, outline, withoutNode, Outline.withoutNode]
  simp only
  rw [Keyed.map_erase]

theorem mem_handles_withNode {name : String} {other : Handle}
    (h : other ∈ (session.withNode name handle).handles) :
    other = handle ∨ other ∈ session.handles := by
  obtain ⟨entry, hentry, rfl⟩ := List.mem_map.mp h
  rcases Keyed.mem_of_mem_put hentry with hnew | hold
  · exact Or.inl hnew
  · exact Or.inr (List.mem_map.mpr ⟨entry, hold, rfl⟩)

theorem Coherent.withNode (h : session.Coherent) (name : String)
    (hserves : session.workspace.Serves (handle :: session.handles)) :
    (session.withNode name handle).Coherent where
  faithful := h.faithful
  serves := hserves.mono fun _ hother => List.mem_cons.mpr (mem_handles_withNode hother)
  factories := h.factories

theorem Coherent.withoutNode (h : session.Coherent) (name : String) :
    (session.withoutNode name).Coherent where
  faithful := h.faithful
  serves := by
    apply h.serves.mono
    intro other hother
    obtain ⟨entry, hentry, rfl⟩ := List.mem_map.mp hother
    exact List.mem_map.mpr ⟨entry, (List.mem_filter.mp hentry).1, rfl⟩
  factories := h.factories

/-- Naming handles one after the other keeps the order and does to the outline
what naming their views does. -/
theorem Coherent.withNodes (h : session.Coherent) (name : String) {opened : List Handle}
    (hserves : session.workspace.Serves (opened ++ session.handles)) :
    (session.withNodes name opened).Coherent ∧
      (session.withNodes name opened).outline =
        session.outline.withNodes name (opened.map session.workspace.view) := by
  rw [Session.withNodes, Outline.withNodes, List.zipIdx_map]
  -- The positions go on from one handle to the next, so they may start anywhere.
  generalize 0 = first
  induction opened generalizing session first with
  | nil => exact ⟨h, rfl⟩
  | cons handle rest ih =>
      have hhandle : session.workspace.Serves (handle :: session.handles) := by
        apply hserves.mono
        intro other hother
        rcases List.mem_cons.mp hother with rfl | hold
        · exact List.mem_append_left _ List.mem_cons_self
        · exact List.mem_append_right _ hold
      -- The handle that has just been named leaves the list and joins the named ones.
      have hrest : session.workspace.Serves
          (rest ++ (session.withNode (name ++ "." ++ toString first) handle).handles) := by
        apply hserves.mono
        intro other hother
        rcases List.mem_append.mp hother with hlater | hnamed
        · exact List.mem_append_left _ (List.mem_cons_of_mem _ hlater)
        · rcases mem_handles_withNode hnamed with rfl | hold
          · exact List.mem_append_left _ List.mem_cons_self
          · exact List.mem_append_right _ hold
      have hnext := ih (h.withNode _ hhandle) hrest (first + 1)
      rw [outline_withNode] at hnext
      exact hnext

theorem Coherent.keepSelection (h : session.Coherent) {found? : Option Selection}
    (hserves : session.workspace.Serves (Selection.opened found? ++ session.handles))
    {expander : Expander}
    (hview : ∀ new ∈ Selection.opened found?,
      session.workspace.view new = { document := new.document, expander })
    (name? : Option String) :
    (session.keepSelection found? name?).Coherent ∧
      (session.keepSelection found? name?).outline =
        session.outline.keepFirst expander (found?.map Selection.shown) name? := by
  rcases found? with _ | value | handle
  · exact ⟨h, rfl⟩
  · exact ⟨h, rfl⟩
  · cases name? with
    | none => exact ⟨h, rfl⟩
    | some name =>
        refine ⟨h.withNode name hserves, ?_⟩
        rw [Session.keepSelection, outline_withNode, hview handle List.mem_cons_self]
        rfl

theorem Coherent.keepSelections (h : session.Coherent) {found : Selections}
    (hserves : session.workspace.Serves (found.opened ++ session.handles)) {expander : Expander}
    (hview : ∀ new ∈ found.opened,
      session.workspace.view new = { document := new.document, expander })
    (name? : Option String) :
    (session.keepSelections found name?).Coherent ∧
      (session.keepSelections found name?).outline =
        session.outline.keepAll expander found.shown name? := by
  cases found with
  | values items => exact ⟨h, rfl⟩
  | nodes opened =>
      cases name? with
      | none => exact ⟨h, rfl⟩
      | some name =>
          obtain ⟨hcoherent, houtline⟩ := h.withNodes name hserves
          have hviews : opened.map session.workspace.view =
              (opened.map Handle.document).map fun document => { document, expander } := by
            rw [List.map_map]
            exact List.map_congr_left hview
          exact ⟨hcoherent, houtline.trans (congrArg (session.outline.withNodes name) hviews)⟩

/-! ## Commands -/

/-- A session carries out a command like an outline does: it fails with the same
fault, or it hands out the same and is in good order again, and the outlines
agree. -/
inductive Follows : Except Fault (Outcome × Session) → Except Fault (Answer × Outline) → Prop
  | ok {outcome : Outcome} {next : Session} {answer : Answer} {outline : Outline}
      (hanswer : outcome.answer = answer) (hnext : next.Coherent)
      (houtline : next.outline = outline) : Follows (.ok (outcome, next)) (.ok (answer, outline))
  | error (fault : Fault) : Follows (.error fault) (.error fault)

theorem Follows.bind {α : Type} {input : Except Fault α}
    {first : α → Except Fault (Outcome × Session)} {second : α → Except Fault (Answer × Outline)}
    (h : ∀ value, input = .ok value → Follows (first value) (second value)) :
    Follows (input >>= first) (input >>= second) := by
  cases input with
  | error fault => exact .error fault
  | ok value => exact h value rfl

theorem Follows.bind_node {name : String} {first : Handle → Except Fault (Outcome × Session)}
    {second : View → Except Fault (Answer × Outline)}
    (h : ∀ handle ∈ session.handles,
      Follows (first handle) (second (session.workspace.view handle))) :
    Follows (session.node name >>= first) (session.outline.node name >>= second) := by
  rw [node, Outline.node, outline, Keyed.lookup_map]
  cases hlookup : session.nodes.lookup name with
  | none => exact .error (.unknownNode name)
  | some handle => exact h handle (mem_handles hlookup)

theorem Follows.bind_factory {name : String}
    {first : Factory → Except Fault (Outcome × Session)}
    {second : Expander → Except Fault (Answer × Outline)}
    (h : ∀ factory, (name, factory) ∈ session.factories →
      Follows (first factory) (second (session.workspace.compiler factory.compiler).expander)) :
    Follows (session.factory name >>= first) (session.outline.factory name >>= second) := by
  rw [factory, Outline.factory, outline, Keyed.lookup_map]
  cases hlookup : session.factories.lookup name with
  | none => exact .error (.unknownFactory name)
  | some factory => exact h factory (Keyed.mem_of_lookup_eq_some hlookup)

/-- Opening a document names a handle on it, under the names of its compiler. -/
theorem Coherent.open (h : session.Coherent) {document : Json} (hwf : document.WellFormed)
    {factory : Factory} (hlt : factory.compiler < session.workspace.compilers.size)
    (name : String) :
    let bound := session.workspace.bind factory document
    (({ session with workspace := bound.2 } : Session).withNode name bound.1).Coherent ∧
      (({ session with workspace := bound.2 } : Session).withNode name bound.1).outline =
        session.outline.withNode name
          { document, expander := (session.workspace.compiler factory.compiler).expander } := by
  have hserves := h.serves.newHandle hwf hlt factory.caching
  have hfaithful : (session.workspace.bind factory document).2.Faithful :=
    h.faithful.of_compilers_eq rfl
  have hkeeps : session.workspace.Keeps (session.workspace.bind factory document).2 :=
    Workspace.Keeps.of_compilers_eq rfl
  have hsame := h.withWorkspace hfaithful (hserves.mono fun _ => List.mem_cons_of_mem _) hkeeps
  refine ⟨hsame.withNode name hserves, ?_⟩
  rw [outline_withNode, h.outline_withWorkspace hkeeps]
  rfl

/-- After a question the session is in good order, and the outline does not see
it. -/
theorem Coherent.asked (h : session.Coherent) (hmem : handle ∈ session.handles)
    {opened : List Handle}
    (hupkeep : session.workspace.Upkeep session.handles handle opened workspace) :
    ({ session with workspace } : Session).Coherent ∧
      ({ session with workspace } : Session).outline = session.outline ∧
      ∀ new ∈ opened, workspace.view new =
        { document := new.document, expander := (session.workspace.view handle).expander } := by
  have hserves := hupkeep.serves.mono fun _ hold => List.mem_append_right opened hold
  refine ⟨h.withWorkspace hupkeep.faithful hserves hupkeep.keeps,
    h.outline_withWorkspace hupkeep.keeps, ?_⟩
  intro new hnew
  rw [Workspace.view, hupkeep.compiler new hnew,
    hupkeep.keeps.2 handle.compiler (h.serves.compiler_lt handle hmem)]
  rfl

theorem Coherent.query (h : session.Coherent) (hmem : handle ∈ session.handles) (path : String)
    (name? : Option String) :
    let asked := session.workspace.query handle path
    let found? := (session.workspace.view handle).first? path
    asked.1.map Selection.shown = found? ∧
      (({ session with workspace := asked.2 } : Session).keepSelection asked.1 name?).Coherent ∧
      (({ session with workspace := asked.2 } : Session).keepSelection asked.1 name?).outline =
        session.outline.keepFirst (session.workspace.view handle).expander found? name? := by
  obtain ⟨hfound, hupkeep⟩ := h.serves.query h.faithful hmem path
  obtain ⟨hsame, hunseen, hview⟩ := h.asked hmem hupkeep
  obtain ⟨hcoherent, houtline⟩ := hsame.keepSelection hupkeep.serves hview name?
  rw [hfound, hunseen] at houtline
  exact ⟨hfound, hcoherent, houtline⟩

theorem Coherent.queryAll (h : session.Coherent) (hmem : handle ∈ session.handles)
    (path : String) (name? : Option String) :
    let asked := session.workspace.queryAll handle path
    let found := (session.workspace.view handle).all path
    asked.1.shown = found ∧
      (({ session with workspace := asked.2 } : Session).keepSelections asked.1 name?).Coherent ∧
      (({ session with workspace := asked.2 } : Session).keepSelections asked.1 name?).outline =
        session.outline.keepAll (session.workspace.view handle).expander found name? := by
  obtain ⟨hfound, hupkeep⟩ := h.serves.queryAll h.faithful hmem path
  obtain ⟨hsame, hunseen, hview⟩ := h.asked hmem hupkeep
  obtain ⟨hcoherent, houtline⟩ := hsame.keepSelections hupkeep.serves hview name?
  rw [hfound, hunseen] at houtline
  exact ⟨hfound, hcoherent, houtline⟩

theorem Coherent.newFactory (h : session.Coherent) (context : Context) (caching : Bool) :
    let made := session.workspace.factory context caching
    ({ session with workspace := made.2 } : Session).Coherent ∧
      ({ session with workspace := made.2 } : Session).outline = session.outline ∧
      made.1.compiler < made.2.compilers.size ∧
      (made.2.compiler made.1.compiler).expander = context.expander := by
  have hkeeps := Workspace.keeps_factory session.workspace context caching
  refine ⟨h.withWorkspace (h.faithful.factory context caching) (h.serves.factory context caching)
    hkeeps, h.outline_withWorkspace hkeeps, ?_, ?_⟩
  · rw [Workspace.size_factory]
    exact Nat.lt_succ_self _
  · rw [Workspace.compiler_factory]
    exact congrArg Compiler.expander (if_pos rfl)

theorem Coherent.withFactory (h : session.Coherent) {factory : Factory}
    (hlt : factory.compiler < session.workspace.compilers.size) (name : String) :
    let named : Session :=
      { session with factories := Keyed.put name factory session.factories }
    named.Coherent ∧
      named.outline =
        { session.outline with
          factories :=
            Keyed.put name (session.workspace.compiler factory.compiler).expander
              session.outline.factories } := by
  refine ⟨⟨h.faithful, h.serves, ?_⟩, ?_⟩
  · intro entry hentry
    rcases Keyed.mem_of_mem_put hentry with hnew | hold
    · rw [hnew]
      exact hlt
    · exact h.factories entry hold
  · rw [outline, outline]
    simp only
    rw [Keyed.map_put]

/-- A session in good order carries out every command like its outline. -/
theorem Coherent.follows_perform (h : session.Coherent) {command : Command}
    (hwf : command.WellFormed) :
    Follows (session.perform command) (session.outline.perform command) := by
  cases command with
  | factory context caching name =>
      refine Follows.bind fun context hcontext => ?_
      obtain ⟨hcoherent, hunseen, hlt, hnames⟩ := h.newFactory context caching
      obtain ⟨hnext, houtline⟩ := hcoherent.withFactory hlt name
      rw [hunseen, hnames] at houtline
      exact .ok rfl hnext houtline
  | document factory document name =>
      refine Follows.bind_factory fun factory hfactory => ?_
      refine Follows.bind fun document hdocument => ?_
      subst hdocument
      obtain ⟨hnext, houtline⟩ := h.open hwf (h.factories _ hfactory) name
      exact .ok rfl hnext houtline
  | build document context name =>
      -- The input comes in the other order, and the factory stays without a name.
      refine Follows.bind fun document hdocument => ?_
      subst hdocument
      refine Follows.bind fun context hcontext => ?_
      obtain ⟨hcoherent, hunseen, hlt, hnames⟩ := h.newFactory context true
      obtain ⟨hnext, houtline⟩ := hcoherent.open hwf hlt name
      rw [hunseen, hnames] at houtline
      exact .ok rfl hnext houtline
  | clone node name =>
      refine Follows.bind_node fun handle hmem => ?_
      -- The second name is for a handle that has one already.
      have hserves : session.workspace.Serves (handle :: session.handles) := by
        exact h.serves.mono (List.forall_mem_cons.mpr ⟨hmem, fun _ hold => hold⟩)
      exact .ok rfl (h.withNode name hserves) (outline_withNode session name handle)
  | drop node => exact .ok rfl (h.withoutNode node) (outline_withoutNode session node)
  | release node =>
      refine Follows.bind_node fun handle hmem => ?_
      exact .ok rfl (h.withoutNode node) (outline_withoutNode session node)
  | json node =>
      refine Follows.bind_node fun handle hmem => ?_
      exact .ok rfl h rfl
  | caching node enabled =>
      refine Follows.bind_node fun handle hmem => ?_
      have hkeeps : session.workspace.Keeps (session.workspace.setCaching handle enabled) :=
        Workspace.Keeps.of_compilers_eq rfl
      have hfaithful : (session.workspace.setCaching handle enabled).Faithful :=
        h.faithful.of_compilers_eq rfl
      have hnext := h.withWorkspace hfaithful (h.serves.setCaching hmem enabled) hkeeps
      exact .ok rfl hnext (h.outline_withWorkspace hkeeps)
  | query node path name? =>
      refine Follows.bind_node fun handle hmem => ?_
      obtain ⟨hfound, hnext, houtline⟩ := h.query hmem path name?
      exact .ok (congrArg Answer.first hfound) hnext houtline
  | queryAll node path name? =>
      refine Follows.bind_node fun handle hmem => ?_
      obtain ⟨hfound, hnext, houtline⟩ := h.queryAll hmem path name?
      exact .ok (congrArg Answer.all hfound) hnext houtline
  | compile factory source =>
      refine Follows.bind_factory fun factory hfactory => ?_
      have hkeeps := Workspace.keeps_compile session.workspace factory.compiler source
      have hnext := h.withWorkspace (h.faithful.compile factory.compiler source)
        (h.serves.compile factory.compiler source) hkeeps
      exact .ok rfl hnext (h.outline_withWorkspace hkeeps)
  | tally factory =>
      refine Follows.bind_factory fun factory hfactory => ?_
      exact .ok rfl h rfl
  | check node =>
      refine Follows.bind_node fun handle hmem => ?_
      exact .ok rfl h rfl

/-! ## Runs -/

theorem Coherent.run (h : session.Coherent) {command : Command} (hwf : command.WellFormed) :
    (session.run command).1.map Outcome.answer = (session.outline.run command).1 ∧
      (session.run command).2.Coherent ∧
      (session.run command).2.outline = (session.outline.run command).2 := by
  have hfollows := h.follows_perform hwf
  rw [Session.run, Outline.run]
  -- Both runs look only at what has been carried out.
  generalize session.perform command = performed at hfollows ⊢
  generalize session.outline.perform command = outlined at hfollows ⊢
  cases hfollows with
  | ok hanswer hnext houtline => exact ⟨congrArg Except.ok hanswer, hnext, houtline⟩
  | error fault => exact ⟨rfl, h, rfl⟩

theorem Coherent.answers (h : session.Coherent) {commands : List Command}
    (hwf : ∀ command ∈ commands, command.WellFormed) :
    session.answers commands = session.outline.answers commands := by
  induction commands generalizing session with
  | nil => rfl
  | cons command rest ih =>
      obtain ⟨hcommand, hcommands⟩ := List.forall_mem_cons.mp hwf
      obtain ⟨hanswer, hnext, houtline⟩ := h.run hcommand
      have hrest := ih hnext hcommands
      rw [Session.answers, Outline.answers, hanswer, hrest, houtline]

theorem Coherent.after (h : session.Coherent) {commands : List Command}
    (hwf : ∀ command ∈ commands, command.WellFormed) :
    (session.after commands).Coherent ∧
      (session.after commands).outline = session.outline.after commands := by
  induction commands generalizing session with
  | nil => exact ⟨h, rfl⟩
  | cons command rest ih =>
      obtain ⟨hcommand, hcommands⟩ := List.forall_mem_cons.mp hwf
      obtain ⟨_, hnext, houtline⟩ := h.run hcommand
      have hrest := ih hnext hcommands
      rw [houtline] at hrest
      exact hrest

end Session

/-! ## What later answers depend on -/

/-- What is left of a command when it is of no account which traces are kept:
nothing, if it only asks, counts or switches the keeping of traces. -/
def Command.essence? : Command → Option Command
  | .factory context _ name => some (.factory context true name)
  | .query _ _ none => none
  | .queryAll _ _ none => none
  | .json _ => none
  | .caching _ _ => none
  | .compile _ _ => none
  | .tally _ => none
  | .check _ => none
  | command => some command

namespace Outline

theorem keepFirst_none (outline : Outline) (expander : Expander) (found? : Option Shown) :
    outline.keepFirst expander found? none = outline := by
  unfold keepFirst
  split
  · contradiction
  · rfl

theorem keepAll_none (outline : Outline) (expander : Expander) (found : ShownAll) :
    outline.keepAll expander found none = outline := by
  unfold keepAll
  split
  · contradiction
  · rfl

/-- A command that goes on with the same outline changes nothing, whether it
fails or not. -/
theorem run_of_bind {outline : Outline} {command : Command} {α : Type} (input : Except Fault α)
    (answer : α → Answer)
    (h : outline.perform command = input >>= fun value => .ok (answer value, outline)) :
    (outline.run command).2 = outline := by
  rw [run, h]
  cases input with
  | error fault => rfl
  | ok value => rfl

theorem run_of_essence?_eq_none (outline : Outline) {command : Command}
    (h : command.essence? = none) : (outline.run command).2 = outline := by
  cases command with
  | query node path name? =>
      cases name? with
      | some name => contradiction
      | none =>
          refine run_of_bind (outline.node node) (fun view => .first (view.first? path)) ?_
          simp only [perform, keepFirst_none]
          rfl
  | queryAll node path name? =>
      cases name? with
      | some name => contradiction
      | none =>
          refine run_of_bind (outline.node node) (fun view => .all (view.all path)) ?_
          simp only [perform, keepAll_none]
          rfl
  | json node => exact run_of_bind (outline.node node) (fun view => .document view.document) rfl
  | caching node enabled => exact run_of_bind (outline.node node) (fun _ => .none) rfl
  | check node => exact run_of_bind (outline.node node) (fun _ => .none) rfl
  | compile factory source => exact run_of_bind (outline.factory factory) (fun _ => .none) rfl
  | tally factory => exact run_of_bind (outline.factory factory) (fun _ => .none) rfl
  | _ => contradiction

theorem run_of_essence?_eq_some (outline : Outline) {command other : Command}
    (h : command.essence? = some other) :
    (outline.run command).2 = (outline.run other).2 := by
  cases command with
  | factory | document | build | clone | drop | release =>
      obtain rfl := Option.some.inj h
      rfl
  | query node path name? =>
      cases name? with
      | none => contradiction
      | some name =>
          obtain rfl := Option.some.inj h
          rfl
  | queryAll node path name? =>
      cases name? with
      | none => contradiction
      | some name =>
          obtain rfl := Option.some.inj h
          rfl
  | json | caching | compile | tally | check => contradiction

/-- The outline after some commands depends on their essence alone. -/
theorem after_filterMap_essence? (outline : Outline) (commands : List Command) :
    outline.after (commands.filterMap Command.essence?) = outline.after commands := by
  induction commands generalizing outline with
  | nil => rfl
  | cons command rest ih =>
      cases hessence : command.essence? with
      | none =>
          rw [List.filterMap_cons_none hessence, ih]
          show _ = Outline.after (outline.run command).2 rest
          rw [outline.run_of_essence?_eq_none hessence]
      | some other =>
          rw [List.filterMap_cons_some hessence]
          show Outline.after (outline.run other).2 _ = Outline.after (outline.run command).2 rest
          rw [ih, outline.run_of_essence?_eq_some hessence]

end Outline

namespace Session

variable {session : Session} {handle : Handle}

theorem outline_node {name : String} (h : session.node name = .ok handle) :
    session.outline.node name = .ok (session.workspace.view handle) := by
  rw [node] at h
  rw [Outline.node, outline, Keyed.lookup_map]
  cases hlookup : session.nodes.lookup name with
  | none =>
      rw [hlookup] at h
      contradiction
  | some other =>
      rw [hlookup] at h
      cases h
      rfl

/-- Caches do not show.  In every session that commands lead to, a named handle
is answered what its document gives without any cache; all answers of a run are
those of the outline, which has no caches; runs that differ in the keeping of
traces and in what was only asked before agree in all that follows; and a walk
that ends with the first match finds what a search among the listed traces
finds. -/
theorem answers_without_caches :
    (∀ commands : List Command, (∀ command ∈ commands, command.WellFormed) →
      (∀ node handle, (empty.after commands).node node = .ok handle → ∀ path name?,
        ((empty.after commands).run (.query node path name?)).1.map Outcome.answer =
            .ok (.first (((empty.after commands).workspace.view handle).first? path)) ∧
          ((empty.after commands).run (.queryAll node path name?)).1.map Outcome.answer =
            .ok (.all (((empty.after commands).workspace.view handle).all path))) ∧
      (empty.after commands).outline = Outline.empty.after commands ∧
      empty.answers commands = Outline.empty.answers commands) ∧
    (∀ first second questions : List Command,
      (∀ command ∈ first ++ second ++ questions, command.WellFormed) →
      first.filterMap Command.essence? = second.filterMap Command.essence? →
      (empty.after first).answers questions = (empty.after second).answers questions) ∧
    ∀ (document : Json) (expander : Expander) (query : Compiled), document.WellFormed →
      query.firstOnWalk? expander document =
        query.firstOf? expander document (traces document) := by
  refine ⟨?_, ?_, ?_⟩
  · intro commands hwf
    obtain ⟨hcoherent, houtline⟩ := coherent_empty.after hwf
    refine ⟨?_, houtline, coherent_empty.answers hwf⟩
    intro node handle hnode path name?
    have hview := outline_node hnode
    have hquery : (Command.query node path name?).WellFormed := trivial
    have hqueryAll : (Command.queryAll node path name?).WellFormed := trivial
    constructor
    · rw [(hcoherent.run hquery).1, Outline.run, Outline.perform, hview]
      rfl
    · rw [(hcoherent.run hqueryAll).1, Outline.run, Outline.perform, hview]
      rfl
  · intro first second questions hwf hessence
    have hwfFirst : ∀ command ∈ first, command.WellFormed :=
      fun command hmem => hwf command (by simp [hmem])
    have hwfSecond : ∀ command ∈ second, command.WellFormed :=
      fun command hmem => hwf command (by simp [hmem])
    have hwfQuestions : ∀ command ∈ questions, command.WellFormed :=
      fun command hmem => hwf command (by simp [hmem])
    obtain ⟨hfirst, houtlineFirst⟩ := coherent_empty.after hwfFirst
    obtain ⟨hsecond, houtlineSecond⟩ := coherent_empty.after hwfSecond
    rw [hfirst.answers hwfQuestions, hsecond.answers hwfQuestions, houtlineFirst, houtlineSecond,
      ← Outline.after_filterMap_essence? _ first, hessence, Outline.after_filterMap_essence?]
  · intro document expander query hwf
    rw [Compiled.firstOnWalk?_eq, Compiled.firstOf?_traces hwf]

/-- One run keeps traces and has asked before; the other one does neither. -/
theorem answers_without_caches_of_two_runs :
    let document : Json := .object [("a", .object [(Keyword.id, .string "x")]), ("b", .null)]
    let first : List Command :=
      [.factory (.ok .empty) true "f", .document "f" (.ok document) "d", .query "d" "a" none]
    let second : List Command :=
      [.factory (.ok .empty) false "f", .document "f" (.ok document) "d", .caching "d" false]
    let questions : List Command := [.queryAll "d" "a" (some "found"), .query "found.0" "@id" none]
    (∀ command ∈ first ++ second ++ questions, command.WellFormed) ∧
      first.filterMap Command.essence? = second.filterMap Command.essence? ∧
      (empty.after first).answers questions = (empty.after second).answers questions := by
  intro document first second questions
  have hdocument : document.WellFormed := by
    simp [document, Json.WellFormed, Json.MembersWellFormed, Keyed.keys]
  have hwf : ∀ command ∈ first ++ second ++ questions, command.WellFormed := by
    simp [first, second, questions, Command.WellFormed, hdocument]
  exact ⟨hwf, rfl, answers_without_caches.2.1 first second questions hwf rfl⟩

end Session

end LinkedPath
