import Mathlib.Data.List.Nodup
import LinkedPath.Match.Content
import LinkedPath.Proofs.Context.Expansion
import LinkedPath.Proofs.Keyed
import LinkedPath.Query.Compiled

/-!
# The order of aliases

Expansion takes the first alias in context order that starts a name.  When no
alias has a colon, the one that starts a name ends at the first colon of it, so
there is one at most (`eq_of_startsName`).  What is found then depends on the
aliases as a set (`splitHead?_expander_eq_some_iff`), and contexts with the same
aliases in another order cannot be told apart.
-/

namespace LinkedPath

/-! ## What depends on an expander -/

namespace Expander

variable {first second : Expander}

theorem expand_congr (h : first.split? = second.split?) : first.expand = second.expand := by
  funext name
  rw [expand, expand, h]

theorem accepts_congr (h : first.split? = second.split?) : first.accepts = second.accepts := by
  funext name full
  rw [accepts, accepts, h]

end Expander

theorem Predicate.holds_congr {first second : Expander} (h : first.accepts = second.accepts) :
    Predicate.holds first = Predicate.holds second := by
  have htext : acceptsText first = acceptsText second := by
    funext predicate text
    rw [acceptsText, acceptsText, h]
  funext predicate node
  cases node with
  | object members => rw [holds, holds, h, htext]
  | _ => rfl

/-- Compiling asks an expander for expansions only. -/
theorem Compiled.compile_congr {first second : Expander} (h : first.expand = second.expand) :
    Compiled.compile first = Compiled.compile second := by
  have hpredicate : Predicate.compile first = Predicate.compile second := by
    funext key value
    rw [Predicate.compile, Predicate.compile, h]
  have hadd : Draft.add first = Draft.add second := by
    funext draft part
    cases part with
    | predicate key value => rw [Draft.add, Draft.add, hpredicate]
    | segment text => rw [Draft.add, Draft.add, h]
    | _ => rfl
  funext source
  rw [compile, compile, ofParts, ofParts, assemble, assemble, hadd]

/-- An alias that starts a name is found, or one before it. -/
theorem Expander.exists_splitHead?_of_mem {heads : List (String × String)} {head iri : String}
    (h : (head, iri) ∈ heads) (tail : String) :
    ∃ found, splitHead? (head ++ tail) heads = some found := by
  rw [← Option.ne_none_iff_exists', Ne, splitHead?_eq_none_iff]
  intro hunheaded
  exact hunheaded _ h tail rfl

namespace Context

/-! ## One alias at most -/

/-- A name begins with an alias and its colon. -/
def StartsName (short name : String) : Prop :=
  ∃ tail, name = short ++ ":" ++ tail

variable {context first second : Context} {name iri tail : String}

/-- Aliases without colons that start the same name are the same. -/
theorem eq_of_startsName (hcolon : ∀ short ∈ Keyed.keys context.aliases, ':' ∉ short.toList)
    {entry other : String × String} (hentry : entry ∈ context.aliases)
    (hother : other ∈ context.aliases) (h : StartsName entry.1 name)
    (h' : StartsName other.1 name) : entry = other := by
  obtain ⟨short, iri⟩ := entry
  obtain ⟨short', iri'⟩ := other
  obtain ⟨tail, rfl⟩ := h
  obtain ⟨rest, heq⟩ := h'
  have hchars : short.toList ++ ':' :: tail.toList = short'.toList ++ ':' :: rest.toList := by
    simpa [← String.toList_inj] using heq
  have hsame : short = short' :=
    String.toList_inj.mp (eq_of_append_colon (hcolon _ (List.mem_map_of_mem hentry))
      (hcolon _ (List.mem_map_of_mem hother)) hchars)
  subst hsame
  have hfull := (Keyed.lookup_of_mem context.nodup hentry).symm.trans
    (Keyed.lookup_of_mem context.nodup hother)
  rw [Option.some.inj hfull]

/-- Where a name is split is a matter of the aliases, whatever their order. -/
theorem splitHead?_expander_eq_some_iff
    (hcolon : ∀ short ∈ Keyed.keys context.aliases, ':' ∉ short.toList) :
    Expander.splitHead? name context.expander.heads = some (iri, tail) ↔
      ∃ short, (short, iri) ∈ context.aliases ∧ name = short ++ ":" ++ tail := by
  have hsound : ∀ {iri tail},
      Expander.splitHead? name context.expander.heads = some (iri, tail) →
        ∃ short, (short, iri) ∈ context.aliases ∧ name = short ++ ":" ++ tail := by
    intro iri tail h
    obtain ⟨head, hhead, hname⟩ := Expander.splitHead?_mem h
    obtain ⟨⟨short, full⟩, hentry, heq⟩ := List.mem_map.mp hhead
    cases heq
    exact ⟨short, hentry, hname⟩
  refine ⟨hsound, ?_⟩
  rintro ⟨short, hentry, rfl⟩
  have hhead : (short ++ ":", iri) ∈ context.expander.heads := List.mem_map.mpr ⟨_, hentry, rfl⟩
  obtain ⟨⟨iri', tail'⟩, hfound⟩ := Expander.exists_splitHead?_of_mem hhead tail
  -- The alias that is found starts the name, and no other one does.
  obtain ⟨short', hentry', hname⟩ := hsound hfound
  cases eq_of_startsName hcolon hentry hentry' ⟨tail, rfl⟩ ⟨tail', hname⟩
  have htail := (Text.stripLead?_append (short ++ ":") tail).symm.trans
    (Text.stripLead?_eq_some_iff.mpr hname)
  rw [hfound, Option.some.inj htail]

/-- A name that begins with an alias expands by it. -/
theorem expand_of_alias (hcolon : ∀ short ∈ Keyed.keys context.aliases, ':' ∉ short.toList)
    {short : String} (hentry : (short, iri) ∈ context.aliases)
    (hkeyword : Keyword.isKeyword name = false) (hname : name = short ++ ":" ++ tail) :
    context.expander.expand name = iri ++ tail := by
  have hfound := (splitHead?_expander_eq_some_iff hcolon).mpr ⟨short, hentry, hname⟩
  rw [Expander.expand, Expander.split?, hkeyword, hfound]
  rfl

/-! ## Contexts from entries -/

theorem aliases_withAlias (hname : name ≠ Keyword.vocab)
    (hnew : name ∉ Keyed.keys context.aliases) :
    (context.withAlias name iri).aliases = context.aliases ++ [(name, iri)] := by
  rw [withAlias, if_neg hname]
  exact Keyed.put_of_not_mem iri hnew

/-- Entries with new names are added behind the others; the one under the
vocabulary keyword is the vocabulary. -/
theorem foldl_withAlias {entries : List (String × String)} (context : Context)
    (hnodup : (Keyed.keys (context.aliases ++ entries)).Nodup) :
    (entries.foldl (fun context entry => context.withAlias entry.1 entry.2) context).aliases =
        context.aliases ++ entries.filter (fun entry => entry.1 != Keyword.vocab) ∧
      (entries.foldl (fun context entry => context.withAlias entry.1 entry.2) context).vocab? =
        (entries.lookup Keyword.vocab).or context.vocab? := by
  induction entries generalizing context with
  | nil => simp
  | cons entry rest ih =>
      obtain ⟨name, iri⟩ := entry
      have hsplit := hnodup
      rw [Keyed.keys, List.map_append, List.map_cons, List.nodup_middle, List.nodup_cons,
        List.mem_append, not_or, ← List.map_append] at hsplit
      obtain ⟨⟨hnew, hlater⟩, hrest⟩ := hsplit
      rw [List.foldl_cons, Keyed.lookup_cons_ite]
      by_cases hname : name = Keyword.vocab
      · subst hname
        obtain ⟨haliases, hvocab⟩ := ih (context.withVocab iri) hrest
        rw [withAlias, if_pos rfl, haliases, hvocab, Keyed.lookup_eq_none_of_not_mem hlater,
          if_pos rfl]
        simp [withVocab]
      · have hput : (context.withAlias name iri).aliases = context.aliases ++ [(name, iri)] :=
          aliases_withAlias hname hnew
        obtain ⟨haliases, hvocab⟩ := ih (context.withAlias name iri) (by
          rwa [hput, List.append_assoc])
        rw [haliases, hvocab, hput, if_neg (Ne.symm hname), withAlias, if_neg hname]
        simp [hname]

/-- Contexts from the same entries in two orders differ in the order of their
aliases only. -/
theorem ofEntries_perm {entries others : List (String × String)} (h : entries.Perm others)
    (hnodup : (Keyed.keys entries).Nodup) :
    (ofEntries entries).vocab? = (ofEntries others).vocab? ∧
      (ofEntries entries).aliases.Perm (ofEntries others).aliases := by
  have hnodup' : (Keyed.keys others).Nodup := (h.map Prod.fst).nodup_iff.mp hnodup
  obtain ⟨haliases, hvocab⟩ := foldl_withAlias empty hnodup
  obtain ⟨haliases', hvocab'⟩ := foldl_withAlias empty hnodup'
  rw [ofEntries, ofEntries, haliases, hvocab, haliases', hvocab', Keyed.lookup_perm h hnodup]
  exact ⟨rfl, (h.filter _).append_left _⟩

/-! ## Contexts in two orders -/

theorem split?_eq_of_mem_iff (hvocab : first.vocab? = second.vocab?)
    (haliases : ∀ entry, entry ∈ first.aliases ↔ entry ∈ second.aliases)
    (hcolon : ∀ short ∈ Keyed.keys first.aliases, ':' ∉ short.toList) :
    first.expander.split? = second.expander.split? := by
  have hcolon' : ∀ short ∈ Keyed.keys second.aliases, ':' ∉ short.toList := by
    intro short hshort
    obtain ⟨entry, hentry, rfl⟩ := List.mem_map.mp hshort
    exact hcolon _ (List.mem_map_of_mem ((haliases entry).mpr hentry))
  funext name
  have hheads : Expander.splitHead? name first.expander.heads =
      Expander.splitHead? name second.expander.heads := by
    apply Option.ext
    rintro ⟨iri, tail⟩
    rw [splitHead?_expander_eq_some_iff hcolon, splitHead?_expander_eq_some_iff hcolon']
    simp only [haliases]
  rw [Expander.split?, Expander.split?, hheads,
    show first.expander.vocab? = second.expander.vocab? from hvocab]

/-- The order of aliases without colons makes no difference: names expand alike
and are accepted alike, selectors compile alike, and predicates hold of the same
nodes.  For no name has more than one alias to choose from, and by that alias it
expands. -/
theorem alias_order_irrelevant (hvocab : first.vocab? = second.vocab?)
    (haliases : first.aliases.Perm second.aliases)
    (hcolon : ∀ short ∈ Keyed.keys first.aliases, ':' ∉ short.toList) :
    (∀ name, first.expander.expand name = second.expander.expand name) ∧
    (∀ name full, first.expander.accepts name full = second.expander.accepts name full) ∧
    (∀ source, Compiled.compile first.expander source = Compiled.compile second.expander source) ∧
    (∀ (predicate : Predicate) (node : Json),
      predicate.holds first.expander node = predicate.holds second.expander node) ∧
    ∀ name, ∀ entry ∈ first.aliases, StartsName entry.1 name →
      (∀ other ∈ first.aliases, StartsName other.1 name → other = entry) ∧
      ∀ tail, Keyword.isKeyword name = false → name = entry.1 ++ ":" ++ tail →
        first.expander.expand name = entry.2 ++ tail := by
  have hsplit := split?_eq_of_mem_iff hvocab (fun _ => haliases.mem_iff) hcolon
  have hexpand := Expander.expand_congr hsplit
  have haccepts := Expander.accepts_congr hsplit
  refine ⟨congrFun hexpand, fun name => congrFun (congrFun haccepts name),
    congrFun (Compiled.compile_congr hexpand),
    fun predicate => congrFun (congrFun (Predicate.holds_congr haccepts) predicate), ?_⟩
  intro name entry hentry hstarts
  refine ⟨?_, fun tail => expand_of_alias hcolon hentry⟩
  intro other hother hstarts'
  exact eq_of_startsName hcolon hother hentry hstarts' hstarts

/-- An empty alias, one alias that begins like another, and the default namespace,
written in the opposite order. -/
theorem alias_order_irrelevant_emptyAlias :
    let entries := [("", "t:"), ("a", "u:"), ("ab", "v:"), (Keyword.vocab, "w:")]
    let first := ofEntries entries
    let second := ofEntries entries.reverse
    (first.vocab? = second.vocab? ∧ first.aliases.Perm second.aliases ∧
        first.aliases ≠ second.aliases ∧
        ∀ short ∈ Keyed.keys first.aliases, ':' ∉ short.toList) ∧
      first.expander.expand "ab:x" = second.expander.expand "ab:x" ∧
      first.expander.expand "ab:x" = "v:x" := by
  intro entries first second
  obtain ⟨hvocab, haliases⟩ := ofEntries_perm (entries.reverse_perm.symm) (by decide)
  have hcolon : ∀ short ∈ Keyed.keys first.aliases, ':' ∉ short.toList := by decide
  have hkeyword : Keyword.isKeyword "ab:x" = false := by
    rw [← Bool.not_eq_true, Keyword.isKeyword_iff_head?]
    decide
  have hentry : ("ab", "v:") ∈ first.aliases := by decide
  obtain ⟨hexpand, _, _, _, hone⟩ := alias_order_irrelevant hvocab haliases hcolon
  obtain ⟨_, hfull⟩ := hone "ab:x" _ hentry ⟨"x", by decide⟩
  exact ⟨⟨hvocab, haliases, by decide, hcolon⟩, hexpand "ab:x", hfull "x" hkeyword (by decide)⟩

end Context

end LinkedPath
