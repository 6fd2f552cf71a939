import LinkedPath.Proofs.Session.Effects

/-!
# Where handles come from

A handle is opened by a command, and a clone of it comes from where it comes
from.  A chronicle runs a session and writes down beside it, for every name,
where its handle was opened.  It looks at the names in the commands and at how
many handles they open, and never at lineages.

The chronicle tells lineages apart: every lineage has an origin of its own
(`Registered`).  So a command shows in the flags of those handles only that
come from where the handle comes from which the command is about.
-/

namespace LinkedPath

/-! ## Chronicles -/

/-- Where a handle was opened: by which command of a run, and at which place
among the handles that this command opened. -/
structure Origin where
  command : Nat
  place : Nat
  deriving DecidableEq, Repr

/-- A session, the number of commands so far, and the origins of its names. -/
structure Chronicle where
  session : Session
  commands : Nat
  origins : List (String × Origin)

namespace Chronicle

/-- The chronicle before the first command. -/
def empty : Chronicle := { session := .empty, commands := 0, origins := [] }

/-- The origins of the handles that the next command opens. -/
def fresh (chronicle : Chronicle) (count : Nat) : List Origin :=
  (List.range count).map (Origin.mk chronicle.commands)

/-- Run a command and write down the origins of the handles that it opens. -/
def run (chronicle : Chronicle) (command : Command) : Chronicle :=
  match chronicle.session.perform command with
  | .ok (outcome, next) =>
      { session := next
        commands := chronicle.commands + 1
        origins := command.rename (chronicle.fresh (command.count outcome)) chronicle.origins }
  | .error _ => { chronicle with commands := chronicle.commands + 1 }

/-- The chronicle after some commands. -/
def after (chronicle : Chronicle) (commands : List Command) : Chronicle :=
  commands.foldl run chronicle

/-- The handles of two names are linked by clones: they come from one origin. -/
def Linked (chronicle : Chronicle) (first second : String) : Prop :=
  ∃ origin, chronicle.origins.lookup first = some origin ∧
    chronicle.origins.lookup second = some origin

/-- Nothing changes the flags of a handle but commands about handles of one
origin. -/
def ReachedOnlyFrom (chronicle : Chronicle) (origin : Origin) (handle : Handle) : Prop :=
  ∀ command, (chronicle.run command).session.workspace.flags handle ≠
      chronicle.session.workspace.flags handle →
    ∃ target, command.target? = some target ∧ chronicle.origins.lookup target = some origin

theorem length_fresh (chronicle : Chronicle) (count : Nat) :
    (chronicle.fresh count).length = count := by
  rw [fresh, List.length_map, List.length_range]

theorem nodup_fresh (chronicle : Chronicle) (count : Nat) : (chronicle.fresh count).Nodup :=
  List.nodup_range.map fun _ _ heq => (Origin.mk.inj heq).2

theorem command_of_mem_fresh {chronicle : Chronicle} {count : Nat} {origin : Origin}
    (h : origin ∈ chronicle.fresh count) : origin.command = chronicle.commands := by
  obtain ⟨place, _, rfl⟩ := List.mem_map.mp h
  rfl

theorem getElem?_fresh (chronicle : Chronicle) {count place : Nat} (hlt : place < count) :
    (chronicle.fresh count)[place]? = some ⟨chronicle.commands, place⟩ := by
  simp [fresh, hlt]

theorem session_run (chronicle : Chronicle) (command : Command) :
    (chronicle.run command).session = (chronicle.session.run command).2 := by
  rw [run, Session.run]
  cases chronicle.session.perform command with
  | error fault => rfl
  | ok result => rfl

/-- A chronicle does not interfere with its session. -/
theorem session_after (chronicle : Chronicle) (commands : List Command) :
    (chronicle.after commands).session = chronicle.session.after commands := by
  induction commands generalizing chronicle with
  | nil => rfl
  | cons command rest ih =>
      show ((chronicle.run command).after rest).session = _
      rw [ih, session_run]
      rfl

end Chronicle

/-! ## Lineages and origins -/

/-- Every lineage has an origin of its own, from a command that has been run,
and the origin of a name is that of the lineage of its handle.  Traces are
stored only where they are kept. -/
structure Registered (chronicle : Chronicle) (born : List Origin) : Prop where
  size : chronicle.session.workspace.lineages.size = born.length
  nodup : born.Nodup
  earlier : ∀ origin ∈ born, origin.command < chronicle.commands
  origins : chronicle.origins.map (Prod.map id some) =
    chronicle.session.nodes.map (Prod.map id fun handle => born[handle.lineage]?)
  tidy : chronicle.session.workspace.Tidy

section Registered

variable {chronicle : Chronicle} {born : List Origin} {handle : Handle} {name : String}

theorem registered_empty : Registered .empty [] where
  size := rfl
  nodup := List.nodup_nil
  earlier _ horigin := by contradiction
  origins := rfl
  tidy handle hlt := absurd hlt (Nat.not_lt_zero handle.lineage)

theorem Registered.exists_of_mem (h : Registered chronicle born)
    (hmem : (name, handle) ∈ chronicle.session.nodes) :
    ∃ origin, born[handle.lineage]? = some origin := by
  have hentry : (name, born[handle.lineage]?) ∈ chronicle.origins.map (Prod.map id some) := by
    rw [h.origins]
    exact List.mem_map.mpr ⟨(name, handle), hmem, rfl⟩
  obtain ⟨entry, _, heq⟩ := List.mem_map.mp hentry
  exact ⟨entry.2, (congrArg Prod.snd heq).symm⟩

theorem Registered.map_lookup (h : Registered chronicle born) (name : String) :
    (chronicle.origins.lookup name).map some =
      (chronicle.session.nodes.lookup name).map fun handle => born[handle.lineage]? := by
  rw [← Keyed.lookup_map, h.origins, Keyed.lookup_map]

theorem Registered.exists_origin (h : Registered chronicle born)
    (hnode : chronicle.session.node name = .ok handle) :
    ∃ origin, born[handle.lineage]? = some origin ∧
      chronicle.origins.lookup name = some origin := by
  have hlookup := h.map_lookup name
  rw [Session.lookup_of_node hnode, Option.map_some] at hlookup
  obtain ⟨origin, hname, horigin⟩ := Option.map_eq_some_iff.mp hlookup
  exact ⟨origin, horigin.symm, hname⟩

theorem Registered.lookup_origins (h : Registered chronicle born)
    (hnode : chronicle.session.node name = .ok handle) :
    chronicle.origins.lookup name = born[handle.lineage]? := by
  obtain ⟨origin, horigin, hname⟩ := h.exists_origin hnode
  rw [horigin, hname]

theorem Registered.lineage_lt (h : Registered chronicle born)
    (hnode : chronicle.session.node name = .ok handle) :
    handle.lineage < chronicle.session.workspace.lineages.size := by
  obtain ⟨origin, horigin, -⟩ := h.exists_origin hnode
  rw [h.size]
  exact (List.getElem?_eq_some_iff.mp horigin).1

theorem Registered.earlier_of_lookup (h : Registered chronicle born) {origin : Origin}
    (hname : chronicle.origins.lookup name = some origin) :
    origin.command < chronicle.commands := by
  have hlookup := h.map_lookup name
  rw [hname] at hlookup
  obtain ⟨handle, _, horigin⟩ := Option.map_eq_some_iff.mp hlookup.symm
  exact h.earlier origin (List.mem_of_getElem? horigin)

/-- Names with the same origin have handles with the same lineage. -/
theorem Registered.lineage_eq_of_linked (h : Registered chronicle born) {first second : String}
    {other : Handle} (hfirst : chronicle.session.node first = .ok handle)
    (hsecond : chronicle.session.node second = .ok other)
    (hlinked : chronicle.Linked first second) : handle.lineage = other.lineage := by
  obtain ⟨origin, hfirstOrigin, hsecondOrigin⟩ := hlinked
  rw [h.lookup_origins hfirst] at hfirstOrigin
  rw [h.lookup_origins hsecond] at hsecondOrigin
  exact (List.getElem?_inj (List.getElem?_eq_some_iff.mp hfirstOrigin).1 h.nodup).mp
    (hfirstOrigin.trans hsecondOrigin.symm)

/-- Lineages keep their origins when others are added. -/
theorem getElem?_origin_append {number : Nat} {origin : Origin} (new : List Origin)
    (h : born[number]? = some origin) : (born ++ new)[number]? = some origin := by
  rw [List.getElem?_append_left (List.getElem?_eq_some_iff.mp h).1, h]

/-! ### Runs -/

variable {command : Command} {outcome : Outcome} {next : Session} {opened : List Handle}

theorem Registered.origin_of_opened (h : Registered chronicle born)
    (heffect : Effect chronicle.session command outcome next opened) {place : Nat}
    {child : Handle} (hchild : opened[place]? = some child) :
    (born ++ chronicle.fresh (command.count outcome))[child.lineage]? =
      some ⟨chronicle.commands, place⟩ := by
  have hplace : place < command.count outcome := by
    rw [← heffect.length]
    exact (List.getElem?_eq_some_iff.mp hchild).1
  rw [heffect.number place child hchild, h.size, List.getElem?_append_right (Nat.le_add_right _ _),
    Nat.add_sub_cancel_left, chronicle.getElem?_fresh hplace]

/-- The lineages of new handles get new origins. -/
theorem Registered.of_effect (h : Registered chronicle born)
    (heffect : Effect chronicle.session command outcome next opened) :
    let new := chronicle.fresh (command.count outcome)
    Registered
      { session := next
        commands := chronicle.commands + 1
        origins := command.rename new chronicle.origins }
      (born ++ new) := by
  intro new
  have hlength : opened.length = new.length := by
    rw [heffect.length, Chronicle.length_fresh]
  refine ⟨?_, ?_, ?_, ?_, heffect.tidy h.tidy⟩
  · rw [heffect.size, h.size, hlength, List.length_append]
  · refine List.Nodup.append h.nodup (chronicle.nodup_fresh _) ?_
    intro origin hold hnew
    exact absurd (Chronicle.command_of_mem_fresh hnew) (Nat.ne_of_lt (h.earlier origin hold))
  · intro origin horigin
    show origin.command < chronicle.commands + 1
    rcases List.mem_append.mp horigin with hold | hnew
    · exact Nat.lt_succ_of_lt (h.earlier origin hold)
    · rw [Chronicle.command_of_mem_fresh hnew]
      exact Nat.lt_succ_self _
  · -- The names are given alike to the handles and to their origins.
    have hopened : opened.map (fun handle => (born ++ new)[handle.lineage]?) = new.map some := by
      apply List.ext_getElem (by simp [hlength])
      intro place hplace _
      rw [List.length_map] at hplace
      have hchild := List.getElem?_eq_getElem hplace
      have hnew := chronicle.getElem?_fresh (heffect.length ▸ hplace)
      rw [List.getElem_map, List.getElem_map, h.origin_of_opened heffect hchild, ← hnew]
      exact List.getElem?_eq_getElem _
    have hnodes : chronicle.session.nodes.map (Prod.map id fun handle => born[handle.lineage]?) =
        chronicle.session.nodes.map
          (Prod.map id fun handle => (born ++ new)[handle.lineage]?) := by
      apply List.map_congr_left
      rintro ⟨name, handle⟩ hmem
      obtain ⟨origin, horigin⟩ := h.exists_of_mem hmem
      rw [Prod.map_apply, Prod.map_apply, horigin, getElem?_origin_append new horigin]
    show (command.rename new chronicle.origins).map (Prod.map id some) =
      next.nodes.map (Prod.map id fun handle => (born ++ new)[handle.lineage]?)
    rw [heffect.nodes, Command.map_rename, Command.map_rename, h.origins, hnodes, hopened]

theorem Registered.acts (h : Registered chronicle born) (command : Command) :
    Acts chronicle.session command (chronicle.session.perform command) :=
  acts_perform (fun _ _ hnode => h.lineage_lt hnode) command

theorem Registered.run (h : Registered chronicle born) (command : Command) :
    ∃ new, Registered (chronicle.run command) (born ++ new) := by
  have hacts := h.acts command
  rw [Chronicle.run]
  generalize chronicle.session.perform command = performed at hacts ⊢
  cases hacts with
  | ok heffect => exact ⟨_, h.of_effect heffect⟩
  | error fault =>
      refine ⟨[], ?_⟩
      rw [List.append_nil]
      exact ⟨h.size, h.nodup, fun origin horigin => Nat.lt_succ_of_lt (h.earlier origin horigin),
        h.origins, h.tidy⟩

theorem Registered.after (h : Registered chronicle born) (commands : List Command) :
    ∃ new, Registered (chronicle.after commands) (born ++ new) := by
  induction commands generalizing chronicle born with
  | nil => exact ⟨[], (List.append_nil born).symm ▸ h⟩
  | cons command rest ih =>
      obtain ⟨new, hrun⟩ := h.run command
      obtain ⟨later, hafter⟩ := ih hrun
      exact ⟨new ++ later, (List.append_assoc born new later) ▸ hafter⟩

/-- The flags of a handle are reached only from where its lineage comes from. -/
theorem Registered.reachedOnlyFrom (h : Registered chronicle born) {origin : Origin}
    (horigin : born[handle.lineage]? = some origin) :
    chronicle.ReachedOnlyFrom origin handle := by
  intro command hchanged
  have hacts := h.acts command
  rw [Chronicle.run] at hchanged
  generalize chronicle.session.perform command = performed at hacts hchanged
  cases hacts with
  | error fault => exact absurd rfl hchanged
  | ok heffect =>
      have hlt : handle.lineage < chronicle.session.workspace.lineages.size := by
        rw [h.size]
        exact (List.getElem?_eq_some_iff.mp horigin).1
      obtain ⟨target, asked, htarget, hnode, hsame⟩ := heffect.old handle hlt hchanged
      refine ⟨target, htarget, ?_⟩
      rw [h.lookup_origins hnode, ← hsame, horigin]

end Registered

end LinkedPath
