import LinkedPath.Proofs.Session.Origins

/-!
# Clones share, and nobody else does

The flags of a handle are those of its lineage, so they change together with the
flags of its clones.  They change with nothing else: not when another handle on
the same document is switched or asked, and not when the handle is switched that
it was selected from, or one that was selected from it.
-/

namespace LinkedPath

namespace Chronicle

variable {chronicle : Chronicle} {born : List Origin} {handle asked : Handle} {target : String}

theorem flags_run_caching (hasked : chronicle.session.node target = .ok asked)
    (hlt : asked.lineage < chronicle.session.workspace.lineages.size)
    (hsame : handle.lineage = asked.lineage) (enabled : Bool) :
    (chronicle.run (.caching target enabled)).session.workspace.flags handle =
      (enabled, chronicle.session.workspace.hasTraces handle && enabled) := by
  have hswitched : (chronicle.run (.caching target enabled)).session.workspace =
      chronicle.session.workspace.setCaching asked enabled := by
    rw [session_run, Session.run, Session.perform, hasked]
    rfl
  rw [hswitched, Workspace.flags_setCaching hlt, if_pos hsame, Workspace.hasTraces_congr hsame]

theorem flags_run_question {command : Command} {path : String}
    (hquestion : command.question? = some (target, path))
    (hasked : chronicle.session.node target = .ok asked)
    (hlt : asked.lineage < chronicle.session.workspace.lineages.size)
    (hfaithful : chronicle.session.workspace.Faithful)
    (hsame : handle.lineage = asked.lineage) :
    (chronicle.run command).session.workspace.flags handle =
      if (Compiled.compile (chronicle.session.workspace.view asked).expander path).isVacuous then
        chronicle.session.workspace.flags handle
      else
        (chronicle.session.workspace.isCaching handle,
          chronicle.session.workspace.hasTraces handle ||
            chronicle.session.workspace.isCaching handle) := by
  obtain ⟨outcome, next, hperform, hadds, -⟩ := exists_effect_of_question hquestion hasked hlt
  have hlisted : handle.lineage <
      (chronicle.session.workspace.listed asked path).lineages.size := by
    rw [Workspace.size_listed, hsame]
    exact hlt
  -- Delivering the answer opens new lineages only, so the listing decides.
  rw [run, hperform, Workspace.view]
  show next.workspace.flags handle = _
  rw [hadds.old handle hlisted, Workspace.flags_listed hlt, hfaithful.query_compile,
    Workspace.isCaching_congr hsame, Workspace.hasTraces_congr hsame]
  cases (Compiled.compile (chronicle.session.workspace.compiler asked.compiler).expander
    path).isVacuous with
  | true => rw [if_neg (by simp), if_pos rfl]
  | false => rw [if_pos ⟨hsame, rfl⟩, if_neg (by simp)]

/-- The handles that come with an answer take over whether traces are kept, have
none yet, and have an origin of their own. -/
theorem exists_registered_run_question (h : Registered chronicle born) {command : Command}
    {path : String} (hquestion : command.question? = some (target, path))
    (hasked : chronicle.session.node target = .ok asked) :
    ∃ outcome new, (chronicle.session.run command).1 = .ok outcome ∧
      Registered (chronicle.run command) (born ++ new) ∧
      ∀ place child, outcome.opened[place]? = some child →
        (chronicle.run command).session.workspace.flags child =
            (chronicle.session.workspace.isCaching asked, false) ∧
          (born ++ new)[child.lineage]? = some ⟨chronicle.commands, place⟩ := by
  obtain ⟨outcome, next, hperform, hadds, heffect⟩ :=
    exists_effect_of_question hquestion hasked (h.lineage_lt hasked)
  rw [run, Session.run, hperform]
  refine ⟨outcome, _, rfl, h.of_effect heffect, ?_⟩
  intro place child hchild
  exact ⟨hadds.new child (List.mem_of_getElem? hchild), h.origin_of_opened heffect hchild⟩

/-- Clones share their flags, and nobody else does.  In every session that
commands lead to, a handle that has traces keeps them.  A command changes the
flags of a handle only when it is about a clone of it.  Switching a clone sets
whether traces are kept, and drops them when they are not; a question for a
clone stores them where they are kept, unless it is vacuous, and then it changes
nothing.  The handles that come with an answer keep traces if the handle that
was asked does, and have none.  Each has an origin that no handle had before,
and whatever is done later, it is reached from this origin only, and the handle
that was asked from its own only. -/
theorem clones_share_flags (commands : List Command)
    (hwf : ∀ command ∈ commands, command.WellFormed) :
    let now := Chronicle.empty.after commands
    let workspace := now.session.workspace
    now.session = Session.empty.after commands ∧
    (∀ name handle, now.session.node name = .ok handle →
      (workspace.hasTraces handle = true → workspace.isCaching handle = true) ∧
      (∀ command, (now.run command).session.workspace.flags handle ≠ workspace.flags handle →
        ∃ target, command.target? = some target ∧ now.Linked target name) ∧
      ∀ target asked, now.session.node target = .ok asked → now.Linked target name →
        (∀ enabled, (now.run (.caching target enabled)).session.workspace.flags handle =
          (enabled, workspace.hasTraces handle && enabled)) ∧
        ∀ command path, command.question? = some (target, path) →
          (now.run command).session.workspace.flags handle =
            if (Compiled.compile (workspace.view asked).expander path).isVacuous then
              (workspace.isCaching handle, workspace.hasTraces handle)
            else
              (workspace.isCaching handle,
                workspace.hasTraces handle || workspace.isCaching handle)) ∧
    ∀ command target path asked, command.question? = some (target, path) →
      now.session.node target = .ok asked →
      let next := now.run command
      ∃ outcome parent, (now.session.run command).1 = .ok outcome ∧
        now.origins.lookup target = some parent ∧
        ∀ place child, outcome.opened[place]? = some child →
          let origin : Origin := { command := now.commands, place }
          next.session.workspace.flags child = (workspace.isCaching asked, false) ∧
          (∀ name, now.origins.lookup name ≠ some origin) ∧
          (∀ name, next.session.node name = .ok child →
            next.origins.lookup name = some origin) ∧
          ∀ later, (next.after later).ReachedOnlyFrom origin child ∧
            (next.after later).ReachedOnlyFrom parent asked := by
  intro now workspace
  have hsession : now.session = Session.empty.after commands := session_after .empty commands
  have hfaithful : now.session.workspace.Faithful := by
    rw [hsession]
    exact (Session.coherent_empty.after hwf).1.faithful
  obtain ⟨born, hborn⟩ : ∃ born, Registered now born := registered_empty.after commands
  refine ⟨hsession, ?_, ?_⟩
  · intro name handle hnode
    have hlt := hborn.lineage_lt hnode
    obtain ⟨origin, horigin, hname⟩ := hborn.exists_origin hnode
    refine ⟨hborn.tidy handle hlt, ?_, ?_⟩
    · intro command hchanged
      obtain ⟨target, htarget, hlookup⟩ := hborn.reachedOnlyFrom horigin command hchanged
      exact ⟨target, htarget, origin, hlookup, hname⟩
    · intro target asked hasked hlinked
      -- One origin means one lineage, and the flags are those of the lineage.
      have hsame := hborn.lineage_eq_of_linked hasked hnode hlinked
      have hlt' := hborn.lineage_lt hasked
      constructor
      · exact flags_run_caching hasked hlt' hsame.symm
      · intro command path hquestion
        exact flags_run_question hquestion hasked hlt' hfaithful hsame.symm
  · intro command target path asked hquestion hasked next
    obtain ⟨parent, hparent, htarget⟩ := hborn.exists_origin hasked
    obtain ⟨outcome, new, hrun, hnext, hopened⟩ :=
      exists_registered_run_question hborn hquestion hasked
    refine ⟨outcome, parent, hrun, htarget, ?_⟩
    intro place child hchild origin
    obtain ⟨hflags, horigin⟩ := hopened place child hchild
    refine ⟨hflags, ?_, ?_, ?_⟩
    · -- Every origin that has a name is from an earlier command.
      intro name hname
      exact absurd (hborn.earlier_of_lookup hname) (Nat.lt_irrefl _)
    · intro name hnode
      rw [hnext.lookup_origins hnode, horigin]
    · intro later
      obtain ⟨_, hlater⟩ := hnext.after later
      exact ⟨hlater.reachedOnlyFrom (getElem?_origin_append _ horigin),
        hlater.reachedOnlyFrom
          (getElem?_origin_append _ (getElem?_origin_append new hparent))⟩

/-- A clone is asked and the handle is switched: the traces that the clone has
stored are the handle's, and the handle that came with the answer goes on to
keep traces. -/
theorem clones_share_flags_askedClone :
    let document : Json := .object [("a", .object [(Keyword.id, .string "x")])]
    let commands : List Command :=
      [.factory (.ok .empty) true "f", .document "f" (.ok document) "d", .clone "d" "e"]
    let now := Chronicle.empty.after commands
    let asked := now.run (.query "e" "a" none)
    (∀ command ∈ commands, command.WellFormed) ∧ now.Linked "e" "d" ∧
      ∃ handle child, now.session.node "d" = .ok handle ∧
        (now.run (.caching "e" false)).session.workspace.flags handle = (false, false) ∧
        asked.session.workspace.flags handle = (true, true) ∧
        asked.session.workspace.flags child = (true, false) ∧
        (asked.run (.caching "d" false)).session.workspace.flags child = (true, false) := by
  intro document commands now asked
  have hdocument : document.WellFormed := by
    simp [document, Json.WellFormed, Json.MembersWellFormed, Keyed.keys]
  have hwf : ∀ command ∈ commands, command.WellFormed := by
    simp [commands, Command.WellFormed, hdocument]
  let handle : Handle := { document, compiler := 0, lineage := 0 }
  let child : Handle :=
    { document := .object [(Keyword.id, .string "x")], compiler := 0, lineage := 1 }
  have hhandle : now.session.node "d" = .ok handle := rfl
  have hclone : now.session.node "e" = .ok handle := rfl
  have hlinked : now.Linked "e" "d" := ⟨⟨1, 0⟩, rfl, rfl⟩
  have hcaching : now.session.workspace.isCaching handle = true := rfl
  have hstored : now.session.workspace.hasTraces handle = false := rfl
  have hvacuous : (Compiled.compile (now.session.workspace.view handle).expander "a").isVacuous =
      false := by decide +kernel
  have hfound : (now.session.workspace.query handle "a").1 = some (.node child) := by
    decide +kernel
  have hselected : (now.session.run (.query "e" "a" none)).1 =
      .ok (.selection (some (.node child))) := by
    rw [Session.run, Session.perform, hclone]
    exact congrArg (fun found? => Except.ok (Outcome.selection found?)) hfound
  have hnamed : asked.origins.lookup "d" = some ⟨1, 0⟩ := rfl
  obtain ⟨-, hhandles, hquestions⟩ := clones_share_flags commands hwf
  obtain ⟨-, -, hclones⟩ := hhandles "d" handle hhandle
  obtain ⟨hswitched, hasked⟩ := hclones "e" handle hclone hlinked
  obtain ⟨outcome, parent, houtcome, -, hopened⟩ :=
    hquestions (.query "e" "a" none) "e" "a" handle rfl hclone
  obtain rfl : .selection (some (.node child)) = outcome :=
    Except.ok.inj (hselected.symm.trans houtcome)
  obtain ⟨hnew, -, -, hlater⟩ := hopened 0 child rfl
  refine ⟨hwf, hlinked, handle, child, hhandle, ?_, ?_, ?_, ?_⟩
  · rw [hswitched false, Bool.and_false]
  · rw [hasked (.query "e" "a" none) "a" rfl, if_neg (Bool.eq_false_iff.mp hvacuous)]
    show (now.session.workspace.isCaching handle,
      now.session.workspace.hasTraces handle || now.session.workspace.isCaching handle) = _
    rw [hcaching, hstored]
    rfl
  · rw [hnew, hcaching]
  · rw [← hcaching, ← hnew]
    by_contra hchanged
    obtain ⟨target, htarget, horigin⟩ := (hlater []).1 (.caching "d" false) hchanged
    obtain rfl : "d" = target := Option.some.inj htarget
    -- The handle comes from the second command, and the new one from the fourth.
    have hsame : some (Origin.mk 1 0) = some ⟨3, 0⟩ := hnamed.symm.trans horigin
    simp at hsame

end Chronicle

end LinkedPath
