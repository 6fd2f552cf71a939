import LinkedPath.Proofs.Json.FullNames
import LinkedPath.Proofs.Match.Lines
import LinkedPath.Proofs.Query.FullNames
import LinkedPath.Proofs.Trace.Parallel

/-!
# Short and full names

A document and the same document in full names are walked in step, as no name
becomes a keyword or the name of the document when it is expanded.  The tests of
a compiled selector accept corresponding spots alike (`accepts_respelled`),
so the selector matches the same visits in both (`verdicts_inFull`).
-/

namespace LinkedPath

/-! ## Predicates -/

namespace Predicate

variable {context : Context} {chosen : Pointer → Bool} {predicate : Predicate}

/-- The predicate reads no string at a chosen place literally. -/
def Bears (chosen : Pointer → Bool) (predicate : Predicate) : Prop :=
  (∀ place, chosen place = false) ∨ predicate.expanded = true

theorem InFull.takesSpellings (h : predicate.InFull context.expander) (hsettled : context.Settled)
    (hbears : predicate.Bears chosen) :
    Json.TakesSpellings context.expander chosen (predicate.acceptsText context.expander) := by
  intro place text hplace
  rcases hbears with hnone | hexpanded
  · rw [hnone place] at hplace
    contradiction
  · rw [acceptsText, acceptsText, if_pos hexpanded, if_pos hexpanded,
      hsettled.accepts_expand (h.expected hexpanded)]

/-- A predicate holds of a value in full exactly when it holds of the value. -/
theorem InFull.holds_inFull (h : predicate.InFull context.expander) (hsettled : context.Settled)
    (hbears : predicate.Bears chosen) (value : Json) (place : Pointer) :
    predicate.holds context.expander (value.inFull context.expander chosen place) =
      predicate.holds context.expander value := by
  have htexts := h.takesSpellings hsettled hbears
  cases value with
  | object members =>
      rw [Json.inFull, holds, holds, Json.membersInFull_eq, List.any_map]
      refine congrArg (List.any members) (funext ?_)
      rintro ⟨name, value⟩
      show (context.expander.accepts (context.expander.expand name) predicate.key && _) = _
      rw [hsettled.accepts_expand h.key, (Json.anyText_inFull hsettled htexts value _).2]
  | _ => simp only [Json.inFull, holds]

end Predicate

/-! ## Spots -/

namespace Spot

variable {context : Context} {chosen : Pointer → Bool} {spot full : Spot}

/-- A spot and the spot of the same value in full.  The key of the document and
of the items in it stays as it is. -/
structure Respelled (context : Context) (chosen : Pointer → Bool) (spot full : Spot) : Prop where
  value : full.value = spot.value.inFull context.expander chosen spot.pointer
  key : full.key = spot.key ∨
    spot.key ≠ Keyword.document ∧ full.key = context.expander.expand spot.key
  wellFormed : spot.value.WellFormed
  sparing : spot.value.EveryObject fun members => Keyword.document ∉ Keyed.keys members

theorem Respelled.key_eq_keyword_iff (hsettled : context.Settled)
    (h : spot.Respelled context chosen full) {keyword : String}
    (hkeyword : Keyword.isKeyword keyword = true) : full.key = keyword ↔ spot.key = keyword := by
  rcases h.key with hkey | ⟨_, hkey⟩
  · rw [hkey]
  · rw [hkey, hsettled.expand_eq_keyword_iff hkeyword]

theorem Respelled.kind (hsettled : context.Settled) (h : spot.Respelled context chosen full) :
    spot.kind = full.kind := by
  have hkeyword := (Keyword.isKeyword_iff Keyword.type).mpr ⟨_, rfl⟩
  have htype := h.key_eq_keyword_iff hsettled hkeyword
  unfold Spot.kind
  rw [h.value]
  cases spot.value with
  | array items =>
      rw [Json.inFull]
      simp only [Kind.of, htype]
  | _ => simp only [Json.inFull, Kind.of]

theorem children_of_object {members : List (String × Json)} (h : spot.value = .object members) :
    spot.children = members.map fun entry =>
      inside spot.key spot.trail (.key entry.1, entry.2) := by
  unfold children Spot.kind
  rw [h]
  exact List.map_map

theorem children_of_array {items : List Json} (h : spot.value = .array items)
    (hkind : spot.kind = .array) :
    spot.children = items.zipIdx.map fun item =>
      inside spot.key spot.trail (.index item.2, item.1) := by
  unfold children
  rw [hkind, h]
  exact List.map_map

/-- The document and the document in full are walked in step. -/
theorem inStep_respelled (hsettled : context.Settled) : InStep (Respelled context chosen) where
  kind := fun h => h.kind hsettled
  children := by
    intro spot full h
    have hvalue := h.value
    have hfull := h.kind hsettled
    have hwf := h.wellFormed
    have hsparing := h.sparing
    cases hkind : spot.kind with
    | leaf =>
        rw [children_of_kind_eq_leaf hkind, children_of_kind_eq_leaf (hfull.symm.trans hkind)]
        exact .nil
    | object =>
        obtain ⟨members, hmembers⟩ := kind_eq_object_iff.mp hkind
        rw [hmembers] at hvalue hwf hsparing
        rw [Json.inFull] at hvalue
        rw [children_of_object hmembers, children_of_object hvalue, Json.membersInFull_eq,
          List.map_map, List.forall₂_map_left_iff, List.forall₂_map_right_iff, List.forall₂_same]
        rintro ⟨name, value⟩ hmem
        have hname : name ≠ Keyword.document := by
          rintro rfl
          exact hsparing members ⟨[], rfl⟩ (List.mem_map_of_mem hmem)
        refine ⟨?_, Or.inr ⟨hname, rfl⟩, hwf.of_member hmem,
          hsparing.child? (Json.child?_of_member hwf hmem)⟩
        rw [pointer_member]
        rfl
    | array =>
        obtain ⟨⟨items, hitems⟩, _⟩ := kind_eq_array_iff.mp hkind
        rw [hitems] at hvalue hwf hsparing
        rw [Json.inFull] at hvalue
        rw [children_of_array hitems hkind, children_of_array hvalue (hfull.symm.trans hkind),
          Json.zipIdx_itemsInFull, List.map_map, List.forall₂_map_left_iff,
          List.forall₂_map_right_iff, List.forall₂_same]
        rintro ⟨item, position⟩ hmem
        -- An item takes over the key, in both documents.
        have hitem := List.mem_zipIdx_iff_getElem?.mp hmem
        refine ⟨?_, h.key, hwf.of_item (List.mem_of_getElem? hitem),
          hsparing.child? (Json.child?_of_item hitem)⟩
        rw [pointer_item]
        rfl

end Spot

/-! ## Tests -/

theorem NodeTest.InFull.accepts_respelled {context : Context} {chosen : Pointer → Bool}
    {test : NodeTest} (htest : test.InFull context.expander) (hsettled : context.Settled)
    (hbears : ∀ predicate ∈ test.predicates, predicate.Bears chosen) {spot full : Spot}
    (h : spot.Respelled context chosen full) :
    test.accepts context.expander full = test.accepts context.expander spot := by
  have hname : ∀ name, test.name? = some name →
      context.expander.accepts full.key name = context.expander.accepts spot.key name := by
    intro name hname
    rcases h.key with hkey | ⟨hne, hkey⟩
    · rw [hkey]
    · rw [hkey]
      rcases htest.name name hname with rfl | hfull
      · -- Neither spelling of the key is accepted for the name of the document.
        have hexpand := hsettled.expand_ne_document hne
        rw [Bool.eq_iff_iff, Expander.accepts_iff, Expander.accepts_iff, hsettled.expand_expand]
        simp only [hne, hexpand]
      · exact hsettled.accepts_expand hfull
  have hpredicates : (test.predicates.all fun predicate =>
        predicate.holds context.expander full.value) =
      test.predicates.all fun predicate => predicate.holds context.expander spot.value := by
    rw [h.value, Bool.eq_iff_iff, List.all_eq_true, List.all_eq_true]
    refine forall₂_congr fun predicate hmem => ?_
    rw [(htest.predicates predicate hmem).holds_inFull hsettled (hbears predicate hmem)]
  rw [NodeTest.accepts, NodeTest.accepts, hpredicates]
  cases hsome : test.name? with
  | none => rfl
  | some name =>
      simp only [hname name hsome]

namespace NodeTest

/-- A test at a position of a line looks up its answer there. -/
theorem acceptsAt_eq_getD (expander : Expander) (test : NodeTest) (line : List Spot)
    (position : Nat) :
    test.acceptsAt expander line position =
      ((line.map (test.accepts expander)).reverse[position]?).getD false := by
  rw [acceptsAt, ← List.map_reverse, List.getElem?_map]
  cases line.reverse[position]? <;> rfl

end NodeTest

namespace Compiled

variable {expander : Expander} {query : Compiled}

/-! ## Documents in step -/

/-- A selector cannot tell lines of spots that its tests accept alike. -/
theorem fits_iff_of_forall₂ {alike : Spot → Spot → Prop} {line other : List Spot}
    (hlines : List.Forall₂ alike line other)
    (htests : ∀ test, .node test ∈ query.steps → ∀ {spot full}, alike spot full →
      test.accepts expander full = test.accepts expander spot) :
    query.Fits expander other ↔ query.Fits expander line := by
  rw [Fits, Fits, hlines.length_eq]
  refine and_congr_right' (Search.fits_congr ?_)
  intro test htest position _
  have hanswers : line.map (test.accepts expander) = other.map (test.accepts expander) :=
    map_eq_map_of_forall₂ hlines fun _ _ _ _ hspot => (htests test htest hspot).symm
  rw [NodeTest.acceptsAt_eq_getD, NodeTest.acceptsAt_eq_getD, hanswers]

/-- Every visit of a document by its number, and whether the selector matches
it. -/
def verdicts (expander : Expander) (document : Json) (query : Compiled) :
    List (Option Nat × Bool) :=
  (traces document).map fun trace =>
    (trace.node?.map Entry.id, query.selects expander document trace)

/-- Of documents that are walked in step a selector matches the same visits, if
its tests accept corresponding spots alike. -/
theorem verdicts_eq_of_inStep {alike : Spot → Spot → Prop} (hstep : Spot.InStep alike)
    {document other : Json} (hwf : document.WellFormed) (hwf' : other.WellFormed)
    (h : alike (Spot.root document) (Spot.root other))
    (htests : ∀ test, .node test ∈ query.steps → ∀ {spot full}, alike spot full →
      test.accepts expander full = test.accepts expander spot) :
    query.verdicts expander other = query.verdicts expander document := by
  rw [verdicts, verdicts, traces_eq, traces_eq, List.map_map, List.map_map]
  refine (map_eq_map_of_forall₂ (Chain.alike_documentOrder hstep h) ?_).symm
  intro chain hchain chain' hchain' halike
  have hlinked := Chain.linked_of_mem_documentOrder hchain
  have hlinked' := Chain.linked_of_mem_documentOrder hchain'
  have hselects : query.selects expander document chain.trace =
      query.selects expander other chain'.trace := by
    rw [Bool.eq_iff_iff, selects_trace_iff hwf hlinked, selects_trace_iff hwf' hlinked']
    exact (fits_iff_of_forall₂ halike.line htests).symm
  exact Prod.ext halike.nodeId?_eq.symm hselects

/-- Documents in short and in full names answer alike.  In a settled context take
a document without a member under the name of the document and without two
names of one object that have the same expansion.  A selector matches the same
visits in the document and in the document with all member names in full; and
when all its predicates compare names, the strings at any places may be put in
full as well. -/
theorem verdicts_inFull {context : Context} (hsettled : context.Settled) {document : Json}
    (hwf : document.WellFormed)
    (hsparing : document.EveryObject fun members => Keyword.document ∉ Keyed.keys members)
    (hdistinct : document.EveryObject fun members =>
      ((Keyed.keys members).map context.expander.expand).Nodup)
    (source : String) :
    let query := compile context.expander source
    query.verdicts context.expander
          (document.inFull context.expander (fun _ => false) []) =
        query.verdicts context.expander document ∧
      ((∀ step ∈ query.steps, ∀ predicate ∈ step.predicates, predicate.expanded = true) →
        ∀ chosen : Pointer → Bool,
          query.verdicts context.expander (document.inFull context.expander chosen []) =
            query.verdicts context.expander document) := by
  intro query
  have hverdicts : ∀ chosen : Pointer → Bool,
      (∀ step ∈ query.steps, ∀ predicate ∈ step.predicates, predicate.Bears chosen) →
      query.verdicts context.expander (document.inFull context.expander chosen []) =
        query.verdicts context.expander document := by
    intro chosen hbears
    have hroot : (Spot.root document).Respelled context chosen
        (Spot.root (document.inFull context.expander chosen [])) :=
      ⟨rfl, Or.inl rfl, hwf, hsparing⟩
    refine verdicts_eq_of_inStep (Spot.inStep_respelled hsettled) hwf
      (hwf.inFull hdistinct chosen []) hroot ?_
    intro test htest spot full h
    have hfull : test.InFull context.expander :=
      inFull_of_mem_steps hsettled source (Part.split source) htest
    exact hfull.accepts_respelled hsettled (hbears _ htest) h
  constructor
  · exact hverdicts _ fun _ _ _ _ => Or.inl fun _ => rfl
  · intro hexpanded chosen
    exact hverdicts chosen fun step hstep predicate hpredicate =>
      Or.inr (hexpanded step hstep predicate hpredicate)

/-- A context with one alias. -/
def aliasContext : Context := Context.empty.withAlias "so" "http://schema.org/"

theorem settled_aliasContext : aliasContext.Settled where
  alias_noColon := by decide
  alias_hasScheme := by
    intro entry hentry
    obtain rfl := List.mem_singleton.mp hentry
    exact ⟨"http", "//schema.org/", rfl, by decide, by decide, by decide +kernel⟩
  vocab_hasScheme := by
    intro vocab hvocab
    contradiction

/-- A document in short names. -/
def shortNames : Json :=
  .object [(Keyword.type, .string "so:Person"), ("so:name", .string "Ada")]

theorem verdicts_inFull_shortNames :
    let expander := aliasContext.expander
    let query := compile expander "[@type=so:Person] so:name"
    let full := shortNames.inFull expander (fun _ => true) []
    aliasContext.Settled ∧ shortNames.WellFormed ∧
      full = .object [(Keyword.type, .string "http://schema.org/Person"),
        ("http://schema.org/name", .string "Ada")] ∧
      query.verdicts expander full = query.verdicts expander shortNames := by
  intro expander query full
  have hwf : shortNames.WellFormed := by
    simp [shortNames, Json.WellFormed, Json.MembersWellFormed, Keyed.keys, Keyword.type]
  have hscalars : ∀ (property : List (String × Json) → Prop),
      ∀ entry ∈ [(Keyword.type, Json.string "so:Person"), ("so:name", Json.string "Ada")],
        entry.2.EveryObject property := by
    intro property entry hentry
    rcases List.mem_pair.mp hentry with rfl | rfl
    · exact Json.everyObject_scalar rfl rfl
    · exact Json.everyObject_scalar rfl rfl
  have hsparing : shortNames.EveryObject fun members => Keyword.document ∉ Keyed.keys members :=
    Json.everyObject_object (by decide) (hscalars _)
  have hdistinct : shortNames.EveryObject fun members =>
      ((Keyed.keys members).map aliasContext.expander.expand).Nodup := by
    refine Json.everyObject_object ?_ (hscalars _)
    decide +kernel
  have hexpanded : ∀ step ∈ query.steps, ∀ predicate ∈ step.predicates,
      predicate.expanded = true := by
    have hsteps : (compile aliasContext.expander "[@type=so:Person] so:name").steps =
        [.node (NodeTest.named "http://schema.org/name"),
          .node (rootTest [⟨Keyword.type, "http://schema.org/Person", true⟩])] := by
      decide +kernel
    rw [show query.steps = _ from hsteps]
    decide
  have hfull : shortNames.inFull aliasContext.expander (fun _ => true) [] =
      .object [(Keyword.type, .string "http://schema.org/Person"),
        ("http://schema.org/name", .string "Ada")] := by
    decide +kernel
  exact ⟨settled_aliasContext, hwf, hfull,
    (verdicts_inFull settled_aliasContext hwf hsparing hdistinct _).2 hexpanded _⟩

end Compiled

end LinkedPath
