import LinkedPath.Proofs.Match.Descent
import LinkedPath.Proofs.Match.Embedding
import LinkedPath.Proofs.Query.Extraction
import LinkedPath.Proofs.Trace.WalkOrder

/-!
# Selectors that ask for nothing

A selector asks for nothing when its text holds nothing but blanks and
combinators.  Reading such a text leaves combinators only, and any other
character leaves another part (`all_child_scan_iff`); every part but a
combinator leaves a node step or a predicate on the document
(`Draft.isVacuous_foldl`).  Such a selector matches nothing.  So the document
itself is matched by selectors without node steps that test it
(`selects_root_iff`).
-/

namespace LinkedPath

open Text (isBlank trim trimStart visible)

namespace Part

/-! ## Texts of combinators -/

/-- The text holds nothing but blanks and combinators. -/
def IsSilent (text : List Char) : Prop := ∀ c ∈ text, isBlank c = true ∨ c = '>'

theorem isSilent_append {front text : List Char} :
    IsSilent (front ++ text) ↔ IsSilent front ∧ IsSilent text :=
  List.forall_mem_append

theorem isSilent_combinator_cons {text : List Char} : IsSilent ('>' :: text) ↔ IsSilent text := by
  simp [IsSilent]

theorem isSilent_of_blank {gap : List Char} (h : ∀ c ∈ gap, isBlank c = true) : IsSilent gap :=
  fun c hc => Or.inl (h c hc)

/-- Blanks do not count. -/
theorem isSilent_iff_visible {text : List Char} : IsSilent text ↔ ∀ c ∈ visible text, c = '>' := by
  simp only [IsSilent, visible, List.mem_filter, Bool.not_eq_true', and_imp]
  refine forall₂_congr fun c _ => ?_
  cases isBlank c <;> simp

theorem isSilent_trim_iff {text : List Char} : IsSilent (trim text) ↔ IsSilent text := by
  rw [isSilent_iff_visible, Text.visible_trim, isSilent_iff_visible]

/-- A segment that is not blank holds a character that is no combinator. -/
theorem not_isSilent_of_segment {c : Char} {more rest : List Char}
    (noChild : (trimStart (c :: (more ++ rest))).head? ≠ some '>')
    (inside : ∀ d ∈ more, endsSegment d = false)
    (hvisible : (c :: more).all isBlank = false) : ¬ IsSilent (c :: more) := by
  intro hsilent
  obtain ⟨hc, hmore⟩ := List.forall_mem_cons.mp hsilent
  -- Behind its first character a segment holds neither blanks nor combinators.
  have hnil : more = [] := by
    refine List.eq_nil_iff_forall_not_mem.mpr fun d hd => ?_
    obtain ⟨hblank, -, hcombinator⟩ := (endsSegment_eq_false_iff d).mp (inside d hd)
    obtain hd | hd := hmore d hd
    · simp [hblank] at hd
    · exact hcombinator hd
  subst hnil
  obtain hblank | rfl := hc
  · simp [hblank] at hvisible
  · rw [Text.trimStart_cons_of_not_blank isBlank_combinator] at noChild
    exact noChild rfl

/-- What is taken from a text are combinators only, and what is left is silent,
exactly when the text is silent. -/
theorem Extraction.all_child_iff {text left : List Char} {parts : List Part}
    (h : Extraction text parts left) :
    (∀ part ∈ parts, part = Part.child) ∧ IsSilent left ↔ IsSilent text := by
  cases h with
  | group group chosen =>
      refine iff_of_false ?_ ?_
      · rintro ⟨hparts, -⟩
        have hpredicate := hparts _ (List.mem_append_right _ List.mem_cons_self)
        contradiction
      · intro hsilent
        have hbracket := hsilent '[' (by simp [chosen.fits.whole, Group.whole])
        simp at hbracket
  | child gap behind _ _ blankGap blankBehind _ whole =>
      rw [whole, isSilent_append, isSilent_combinator_cons, isSilent_append]
      simp [isSilent_of_blank blankGap, isSilent_of_blank blankBehind]
  | segment c more _ _ noChild inside _ whole =>
      rw [whole] at noChild ⊢
      rw [← List.cons_append, isSilent_append]
      cases hblank : (c :: more).all isBlank with
      | true => simp [isSilent_of_blank (List.all_eq_true.mp hblank)]
      | false => simp [not_isSilent_of_segment noChild inside hblank]

/-- A text leaves nothing but combinators exactly when it holds nothing else but
blanks. -/
theorem all_child_scan_iff (text : List Char) :
    (∀ part ∈ scan text, part = child) ↔ IsSilent text := by
  refine scan_induction (motive := fun text parts =>
    (∀ part ∈ parts, part = child) ↔ IsSilent text) (by simp [IsSilent]) ?_ text
  intro text parts left hextraction hleft
  rw [List.forall_mem_append, hleft]
  exact hextraction.all_child_iff

theorem all_child_split_iff (query : String) :
    (∀ part ∈ split query, part = child) ↔ IsSilent query.toList := by
  rw [split, all_child_scan_iff, isSilent_trim_iff]

end Part

namespace Compiled

/-! ## Steps of combinators -/

/-- Nothing was asked for so far. -/
def Draft.isVacuous (draft : Draft) : Bool :=
  draft.rootPredicates.isEmpty && draft.path.all Step.isChild

/-- Every part but a combinator asks for something. -/
theorem Draft.isVacuous_add (expander : Expander) (draft : Draft) (part : Part) :
    (draft.add expander part).isVacuous = (draft.isVacuous && decide (part = .child)) := by
  obtain ⟨path, rootPredicates⟩ := draft
  cases part with
  | anchor | child | segment => simp [add, isVacuous, Step.isChild]
  | predicate key value =>
      cases path with
      | nil => simp [add, require, isVacuous]
      | cons step rest => cases step <;> simp [add, require, isVacuous, Step.isChild]

theorem Draft.isVacuous_foldl (expander : Expander) (draft : Draft) (parts : List Part) :
    (parts.foldl (Draft.add expander) draft).isVacuous = true ↔
      draft.isVacuous = true ∧ ∀ part ∈ parts, part = .child := by
  induction parts generalizing draft with
  | nil => simp
  | cons part rest ih => simp [ih, Draft.isVacuous_add, and_assoc]

theorem isVacuous_ofParts_iff (expander : Expander) (source : String) (parts : List Part) :
    (ofParts expander source parts).isVacuous = true ↔ ∀ part ∈ parts, part = .child := by
  have hempty : Draft.empty.isVacuous = true := rfl
  exact (Draft.isVacuous_foldl expander .empty parts).trans (and_iff_right hempty)

/-! ## The document itself -/

variable {expander : Expander} {document : Json} {query : Compiled}

/-- The test for the document holds at the document when its predicates do. -/
theorem passesAt_rootEntry_iff (predicates : List Predicate) :
    (rootTest predicates).passesAt expander document #[Walk.rootEntry document] 0 = true ↔
      ∀ predicate ∈ predicates, predicate.holds expander document = true := by
  rw [show #[Walk.rootEntry document] = [Walk.rootEntry document].reverse.toArray from rfl,
    NodeTest.passesAt_iff]
  constructor
  · rintro ⟨entry, hentry, hholds⟩ predicate hpredicate
    obtain rfl : Walk.rootEntry document = entry := Option.some.inj hentry
    obtain ⟨value, hvalue, hpredicate⟩ := hholds.predicates predicate hpredicate
    obtain rfl : document = value := Option.some.inj hvalue
    exact hpredicate
  · intro hpredicates
    refine ⟨Walk.rootEntry document, rfl, ?_, fun predicate hmem =>
      ⟨document, rfl, hpredicates predicate hmem⟩⟩
    intro name hname
    obtain rfl : Keyword.document = name := Option.some.inj hname
    simp [Walk.rootEntry, Expander.accepts]

/-- The document itself is matched when all steps before the one for the document
are combinators, and there are predicates on the document, which hold. -/
theorem selects_root_iff :
    query.selects expander document [Walk.rootEntry document] = true ↔
      query.rootPredicates ≠ [] ∧ (∀ step ∈ query.path, step.isChild = true) ∧
        ∀ predicate ∈ query.rootPredicates, predicate.holds expander document = true := by
  have htrace : [Walk.rootEntry document].reverse.toArray = #[Walk.rootEntry document] := rfl
  rw [selects, htrace, Bool.and_eq_true, Bool.and_eq_true, Bool.not_eq_true', Search.run_iff, steps,
    Search.fits_concat_node_iff, ← List.all_eq_true, isVacuous]
  cases hpath : query.path.all Step.isChild with
  | true => simp [Search.lands_iff_of_all_isChild hpath, passesAt_rootEntry_iff]
  | false =>
      -- A node step takes the only position, and none is left for the document.
      have hlands : ∀ position, ¬ Search.Lands
          (NodeTest.passesAt expander document #[Walk.rootEntry document]) query.path 1 true
          (position + 1) :=
        fun position h => absurd (h.lt hpath) (Nat.not_lt.mpr (Nat.le_add_left 1 position))
      simp [hlands]

/-- A selector is vacuous exactly when its text holds nothing but blanks and
combinators; then it matches nothing.  Any other character leaves a node step or
a predicate on the document.  And the trace of the document itself, the first
one of all, is matched exactly when there are predicates on the document, all
of them hold, and all other steps are combinators. -/
theorem isVacuous_compile_iff (expander : Expander) (source : String) :
    let query := compile expander source
    (query.isVacuous = true ↔ ∀ c ∈ source.toList, isBlank c = true ∨ c = '>') ∧
      (query.isVacuous = true → ∀ other document trace,
        query.selects other document trace = false) ∧
      ((∃ c ∈ source.toList, isBlank c = false ∧ c ≠ '>') →
        (∃ test, .node test ∈ query.path) ∨ query.rootPredicates ≠ []) ∧
      ∀ document, (traces document).head? = some [Walk.rootEntry document] ∧
        (query.selects expander document [Walk.rootEntry document] = true ↔
          query.rootPredicates ≠ [] ∧ (∀ step ∈ query.path, step.isChild = true) ∧
            ∀ predicate ∈ query.rootPredicates, predicate.holds expander document = true) := by
  intro query
  have hsilent : query.isVacuous = true ↔ ∀ c ∈ source.toList, isBlank c = true ∨ c = '>' :=
    (isVacuous_ofParts_iff expander source _).trans (Part.all_child_split_iff source)
  refine ⟨hsilent, ?_, ?_, ?_⟩
  · intro hvacuous other document trace
    simp [selects, hvacuous]
  · rintro ⟨c, hc, hblank, hcombinator⟩
    by_contra hnone
    rw [not_or, not_exists, not_ne_iff] at hnone
    obtain ⟨hpath, hroot⟩ := hnone
    have hvacuous : query.isVacuous = true := by
      rw [isVacuous, hroot, List.isEmpty_nil, Bool.true_and, List.all_eq_true]
      intro step hstep
      cases step with
      | child => rfl
      | node test => exact absurd hstep (hpath test)
    obtain hc | hc := hsilent.mp hvacuous c hc
    · simp [hblank] at hc
    · exact hcombinator hc
  · intro document
    refine ⟨?_, selects_root_iff⟩
    rw [traces_eq]
    rfl

/-- Blanks need not be spaces, and a bracket that opens no group is a segment.  A
group in front of a combinator tests the document. -/
theorem isVacuous_compile_iff_blanks :
    let expander := Context.empty.expander
    let silent := "\u00a0> \t>"
    let bracket := ">["
    let group := "[b=c] >"
    let tested : Json := .object [("b", .string "c")]
    (compile expander silent).isVacuous = true ∧
      (∀ document trace, (compile expander silent).selects expander document trace = false) ∧
      (∃ c ∈ bracket.toList, isBlank c = false ∧ c ≠ '>') ∧
      ((∃ test, .node test ∈ (compile expander bracket).path) ∨
        (compile expander bracket).rootPredicates ≠ []) ∧
      (compile expander group).selects expander tested [Walk.rootEntry tested] = true ∧
      (compile expander group).selects expander .null [Walk.rootEntry .null] = false := by
  intro expander silent bracket group tested
  have hsilent : ∀ c ∈ silent.toList, isBlank c = true ∨ c = '>' := by
    simp [silent, isBlank, Text.blanks]
  have hbracket : ∃ c ∈ bracket.toList, isBlank c = false ∧ c ≠ '>' := ⟨'[', by decide⟩
  have hgroup : compile expander group =
      { source := group
        path := [.child]
        rootPredicates := [{ key := "b", expected := "c", expanded := true }] } := by
    decide +kernel
  obtain ⟨hvacuous, hnothing, -⟩ := isVacuous_compile_iff expander silent
  obtain ⟨-, -, hsomething, -⟩ := isVacuous_compile_iff expander bracket
  obtain ⟨-, -, -, hroot⟩ := isVacuous_compile_iff expander group
  refine ⟨hvacuous.mpr hsilent, hnothing (hvacuous.mpr hsilent) expander, hbracket,
    hsomething hbracket, (hroot tested).2.mpr ?_, ?_⟩
  · rw [hgroup]
    refine ⟨List.cons_ne_nil _ _, by simp [Step.isChild], ?_⟩
    intro predicate hpredicate
    rw [List.mem_singleton.mp hpredicate]
    simp [tested, Predicate.holds, Predicate.acceptsText, Expander.accepts, Json.anyText,
      Json.anyTextOfItem]
  · rw [← Bool.not_eq_true, (hroot .null).2, hgroup]
    simp [Predicate.holds]

end Compiled

end LinkedPath
