import LinkedPath.Proofs.Context.Expansion
import LinkedPath.Query.Compiled

/-!
# The names of a selector

Compiling a selector expands its names.  In a settled context they are then at
the end of their expansion, and so are the texts that predicates expect unless
these are compared as they are written (`inFull_of_mem_steps`).  The name of the
document is not expanded.
-/

namespace LinkedPath

/-- The predicate asks for names that are at the end of their expansion. -/
structure Predicate.InFull (expander : Expander) (predicate : Predicate) : Prop where
  key : expander.expand predicate.key = predicate.key
  expected : predicate.expanded = true → expander.expand predicate.expected = predicate.expected

/-- The test asks for names that are at the end of their expansion, or for the
name of the document. -/
structure NodeTest.InFull (expander : Expander) (test : NodeTest) : Prop where
  name : ∀ name, test.name? = some name →
    name = Keyword.document ∨ expander.expand name = name
  predicates : ∀ predicate ∈ test.predicates, predicate.InFull expander

variable {expander : Expander} {context : Context}

theorem Predicate.inFull_compile (h : context.Settled) (key value : String) :
    (Predicate.compile context.expander key value).InFull context.expander := by
  unfold compile
  split
  · exact ⟨h.expand_expand key, fun hexpanded => by contradiction⟩
  · exact ⟨h.expand_expand key, fun _ => h.expand_expand value⟩

namespace NodeTest

theorem inFull_any : any.InFull expander :=
  ⟨fun _ hname => by contradiction, List.forall_mem_nil _⟩

theorem inFull_named {name : String} (h : expander.expand name = name) :
    (named name).InFull expander := by
  refine ⟨?_, List.forall_mem_nil _⟩
  rintro other hother
  obtain rfl := Option.some.inj hother
  exact Or.inr h

theorem InFull.require {test : NodeTest} {predicate : Predicate} (h : test.InFull expander)
    (hpredicate : predicate.InFull expander) : (test.require predicate).InFull expander := by
  refine ⟨h.name, ?_⟩
  intro other hother
  rcases List.mem_append.mp hother with hold | hnew
  · exact h.predicates other hold
  · rw [List.mem_singleton.mp hnew]
    exact hpredicate

end NodeTest

namespace Compiled

variable {draft : Draft}

/-- All names in the draft are at the end of their expansion. -/
structure Draft.InFull (expander : Expander) (draft : Draft) : Prop where
  path : ∀ test, .node test ∈ draft.path → test.InFull expander
  rootPredicates : ∀ predicate ∈ draft.rootPredicates, predicate.InFull expander

theorem Draft.InFull.cons (h : draft.InFull expander) {test : NodeTest}
    (htest : test.InFull expander) :
    ({ draft with path := .node test :: draft.path } : Draft).InFull expander := by
  refine ⟨?_, h.rootPredicates⟩
  intro other hother
  rcases List.mem_cons.mp hother with heq | hmem
  · cases heq
    exact htest
  · exact h.path other hmem

theorem Draft.InFull.require (h : draft.InFull expander) {predicate : Predicate}
    (hpredicate : predicate.InFull expander) : (draft.require predicate).InFull expander := by
  obtain ⟨path, rootPredicates⟩ := draft
  cases path with
  | nil =>
      refine ⟨h.path, ?_⟩
      intro other hother
      rcases List.mem_append.mp hother with hold | hnew
      · exact h.rootPredicates other hold
      · rw [List.mem_singleton.mp hnew]
        exact hpredicate
  | cons step before =>
      cases step with
      | child => exact h.cons (NodeTest.inFull_any.require hpredicate)
      | node test =>
          have hbefore : ({ path := before, rootPredicates } : Draft).InFull expander :=
            ⟨fun other hother => h.path other (List.mem_cons_of_mem _ hother), h.rootPredicates⟩
          exact hbefore.cons ((h.path test List.mem_cons_self).require hpredicate)

theorem Draft.InFull.add (hsettled : context.Settled) (h : draft.InFull context.expander)
    (part : Part) : (draft.add context.expander part).InFull context.expander := by
  cases part with
  | anchor => exact h.cons NodeTest.inFull_any
  | child =>
      refine ⟨?_, h.rootPredicates⟩
      intro test htest
      rcases List.mem_cons.mp htest with heq | hmem
      · contradiction
      · exact h.path test hmem
  | predicate key value => exact h.require (Predicate.inFull_compile hsettled key value)
  | segment text =>
      refine h.cons ?_
      split
      · exact NodeTest.inFull_any
      · exact NodeTest.inFull_named (hsettled.expand_expand text)

theorem inFull_assemble (hsettled : context.Settled) (parts : List Part) :
    (assemble context.expander parts).InFull context.expander := by
  have hfoldl : ∀ {draft : Draft}, draft.InFull context.expander →
      (parts.foldl (Draft.add context.expander) draft).InFull context.expander := by
    induction parts with
    | nil => exact id
    | cons part rest ih => exact fun h => ih (h.add hsettled part)
  exact hfoldl ⟨fun _ htest => absurd htest List.not_mem_nil, List.forall_mem_nil _⟩

/-- All node steps of a compiled selector test full names. -/
theorem inFull_of_mem_steps (hsettled : context.Settled) (source : String) (parts : List Part)
    {test : NodeTest} (h : .node test ∈ (ofParts context.expander source parts).steps) :
    test.InFull context.expander := by
  have hassemble := inFull_assemble hsettled parts
  rcases List.mem_append.mp h with hpath | hroot
  · exact hassemble.path test hpath
  · have heq := List.mem_singleton.mp hroot
    cases heq
    refine ⟨?_, hassemble.rootPredicates⟩
    rintro name hname
    exact Or.inl (Option.some.inj hname).symm

end Compiled

end LinkedPath
