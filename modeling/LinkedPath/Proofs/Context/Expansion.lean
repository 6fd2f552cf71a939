import LinkedPath.Context.Expander

/-!
# Names and their expansions

A document name is accepted for a full name when it is spelled so or expands to
it (`accepts_iff`).  In a context whose aliases have no colon and whose full
names begin with a scheme that is no alias, an expansion is at its end:
expanding it once more changes nothing (`expand_expand`), and no name becomes a
keyword or the name of the document by expansion.
-/

namespace LinkedPath

/-- The first character of a name tells whether it is a keyword. -/
theorem Keyword.isKeyword_iff_head? (name : String) :
    isKeyword name = true ↔ name.toList.head? = some '@' := by
  rw [isKeyword_iff]
  cases name.toList with
  | nil => simp
  | cons c rest => simp

namespace Expander

variable {expander : Expander} {name full : String}

/-- None of the heads starts the name. -/
def Unheaded (heads : List (String × String)) (name : String) : Prop :=
  ∀ entry ∈ heads, ∀ tail, name ≠ entry.1 ++ tail

theorem splitHead?_eq_none_iff {heads : List (String × String)} :
    splitHead? name heads = none ↔ Unheaded heads name := by
  induction heads with
  | nil => simp [splitHead?, Unheaded]
  | cons entry rest ih =>
      obtain ⟨head, iri⟩ := entry
      rw [Unheaded, List.forall_mem_cons, ← Unheaded, ← ih, ← Text.stripLead?_eq_none_iff,
        splitHead?]
      cases Text.stripLead? head name with
      | none => simp
      | some tail => simp

/-- The head that is found is the first one that starts the name. -/
theorem splitHead?_eq_some_iff {heads : List (String × String)} {iri tail : String} :
    splitHead? name heads = some (iri, tail) ↔
      ∃ before head after, heads = before ++ (head, iri) :: after ∧ Unheaded before name ∧
        name = head ++ tail := by
  constructor
  · intro h
    induction heads with
    | nil => contradiction
    | cons entry rest ih =>
        obtain ⟨head, full⟩ := entry
        rw [splitHead?] at h
        split at h
        · rename_i left hstrip
          cases h
          exact ⟨[], head, rest, rfl, by simp [Unheaded], Text.stripLead?_eq_some_iff.mp hstrip⟩
        · rename_i hstrip
          obtain ⟨before, found, after, rfl, hbefore, hname⟩ := ih h
          refine ⟨(head, full) :: before, found, after, rfl, ?_, hname⟩
          exact List.forall_mem_cons.mpr ⟨Text.stripLead?_eq_none_iff.mp hstrip, hbefore⟩
  · rintro ⟨before, head, after, rfl, hbefore, rfl⟩
    induction before with
    | nil => rw [List.nil_append, splitHead?, Text.stripLead?_append]
    | cons entry before ih =>
        obtain ⟨other, full⟩ := entry
        obtain ⟨hother, hrest⟩ := List.forall_mem_cons.mp hbefore
        rw [List.cons_append, splitHead?, Text.stripLead?_eq_none_iff.mpr hother]
        exact ih hrest

theorem splitHead?_mem {heads : List (String × String)} {iri tail : String}
    (h : splitHead? name heads = some (iri, tail)) :
    ∃ head, (head, iri) ∈ heads ∧ name = head ++ tail := by
  obtain ⟨before, head, after, rfl, _, hname⟩ := splitHead?_eq_some_iff.mp h
  exact ⟨head, by simp, hname⟩

/-- A name stands for itself and for its expansion. -/
theorem accepts_iff : expander.accepts name full = true ↔ name = full ∨ expander.expand name = full := by
  rw [accepts, expand, Bool.or_eq_true, beq_iff_eq]
  cases expander.split? name with
  | none => simp
  | some found =>
      obtain ⟨iri, tail⟩ := found
      simp only [beq_iff_eq, Text.stripLead?_eq_some_iff]
      exact or_congr_right eq_comm

/-- For a full name that is at its end, only the expansion counts. -/
theorem accepts_iff_of_expand_eq (h : expander.expand full = full) :
    expander.accepts name full = true ↔ expander.expand name = full := by
  rw [accepts_iff]
  constructor
  · rintro (rfl | hexpand)
    · exact h
    · exact hexpand
  · exact Or.inr

theorem expand_of_isKeyword (h : Keyword.isKeyword name = true) : expander.expand name = name := by
  rw [expand, split?, if_pos h]

end Expander

namespace Context

/-- A full name begins with a scheme, a text before a colon, that is no alias
of the context and no keyword. -/
def HasScheme (context : Context) (iri : String) : Prop :=
  ∃ scheme rest : String, iri = scheme ++ (":" ++ rest) ∧ ':' ∉ scheme.toList ∧
    scheme ∉ Keyed.keys context.aliases ∧ Keyword.isKeyword scheme = false

/-- No alias has a colon, and the beginnings of full names that the aliases and
the vocabulary stand for have schemes. -/
structure Settled (context : Context) : Prop where
  alias_noColon : ∀ short ∈ Keyed.keys context.aliases, ':' ∉ short.toList
  alias_hasScheme : ∀ entry ∈ context.aliases, context.HasScheme entry.2
  vocab_hasScheme : ∀ vocab, context.vocab? = some vocab → context.HasScheme vocab

variable {context : Context} {name iri : String}

theorem HasScheme.append (h : context.HasScheme iri) (tail : String) :
    context.HasScheme (iri ++ tail) := by
  obtain ⟨scheme, rest, rfl, hscheme⟩ := h
  exact ⟨scheme, rest ++ tail, by simp only [String.append_assoc], hscheme⟩

theorem HasScheme.contains (h : context.HasScheme iri) : ':' ∈ iri.toList := by
  obtain ⟨scheme, rest, rfl, _⟩ := h
  simp

theorem HasScheme.isKeyword (h : context.HasScheme iri) : Keyword.isKeyword iri = false := by
  obtain ⟨scheme, rest, rfl, _, _, hkeyword⟩ := h
  rw [← Bool.not_eq_true, Keyword.isKeyword_iff] at hkeyword ⊢
  rintro ⟨left, hleft⟩
  rw [String.toList_append] at hleft
  cases hscheme : scheme.toList with
  | nil =>
      rw [hscheme, String.toList_append] at hleft
      simp at hleft
  | cons c more =>
      rw [hscheme, List.cons_append] at hleft
      obtain ⟨rfl, _⟩ := List.cons.inj hleft
      exact hkeyword ⟨more, hscheme⟩

/-- Two texts without colons are the same when colons follow them in one
text. -/
theorem eq_of_append_colon {first second more rest : List Char} (hfirst : ':' ∉ first)
    (hsecond : ':' ∉ second) (h : first ++ ':' :: more = second ++ ':' :: rest) :
    first = second := by
  induction first generalizing second with
  | nil =>
      cases second with
      | nil => rfl
      | cons c left =>
          obtain ⟨rfl, _⟩ := List.cons.inj h
          exact absurd List.mem_cons_self hsecond
  | cons c left ih =>
      cases second with
      | nil =>
          obtain ⟨rfl, _⟩ := List.cons.inj h
          exact absurd List.mem_cons_self hfirst
      | cons d right =>
          rw [List.cons_append, List.cons_append] at h
          obtain ⟨rfl, hrest⟩ := List.cons.inj h
          rw [ih (fun hmem => hfirst (List.mem_cons_of_mem _ hmem))
            (fun hmem => hsecond (List.mem_cons_of_mem _ hmem)) hrest]

/-- A name with a scheme is at its end. -/
theorem Settled.split?_of_hasScheme (h : context.Settled) (hname : context.HasScheme name) :
    context.expander.split? name = none := by
  have hheads : Expander.splitHead? name context.expander.heads = none := by
    rw [Option.eq_none_iff_forall_ne_some]
    rintro ⟨iri, tail⟩ hfound
    obtain ⟨head, hhead, hsplit⟩ := Expander.splitHead?_mem hfound
    obtain ⟨⟨short, full⟩, hentry, heq⟩ := List.mem_map.mp hhead
    cases heq
    have hshort : short ∈ Keyed.keys context.aliases := List.mem_map_of_mem hentry
    obtain ⟨scheme, rest, rfl, hcolon, hnew, _⟩ := hname
    -- The alias and the scheme both reach to the first colon.
    have hchars : scheme.toList ++ ':' :: rest.toList = short.toList ++ ':' :: tail.toList := by
      simpa [← String.toList_inj] using hsplit
    have hsame := eq_of_append_colon hcolon (h.alias_noColon short hshort) hchars
    rw [String.toList_inj] at hsame
    exact hnew (hsame ▸ hshort)
  have hbare : Expander.isBare name = false := by
    rw [Expander.isBare, List.contains_eq_mem, decide_eq_true hname.contains]
    simp
  rw [Expander.split?, hname.isKeyword, hheads, hbare]
  rfl

theorem Settled.hasScheme_of_split? (h : context.Settled) {tail : String}
    (hsplit : context.expander.split? name = some (iri, tail)) : context.HasScheme iri := by
  rw [Expander.split?] at hsplit
  split at hsplit
  · contradiction
  · split at hsplit
    · rename_i found hfound
      cases hsplit
      obtain ⟨head, hhead, _⟩ := Expander.splitHead?_mem hfound
      obtain ⟨entry, hentry, heq⟩ := List.mem_map.mp hhead
      cases heq
      exact h.alias_hasScheme entry hentry
    · split at hsplit
      · obtain ⟨vocab, hvocab, heq⟩ := Option.map_eq_some_iff.mp hsplit
        cases heq
        exact h.vocab_hasScheme _ hvocab
      · contradiction

/-- A name stays as it is or gets a scheme. -/
theorem Settled.expand_cases (h : context.Settled) (name : String) :
    context.expander.expand name = name ∨ context.HasScheme (context.expander.expand name) := by
  rw [Expander.expand]
  cases hsplit : context.expander.split? name with
  | none => exact Or.inl rfl
  | some found =>
      obtain ⟨iri, tail⟩ := found
      exact Or.inr ((h.hasScheme_of_split? hsplit).append tail)

/-- Expanding an expansion changes nothing. -/
theorem Settled.expand_expand (h : context.Settled) (name : String) :
    context.expander.expand (context.expander.expand name) = context.expander.expand name := by
  rcases h.expand_cases name with hsame | hscheme
  · rw [hsame, hsame]
  · generalize context.expander.expand name = full at hscheme
    rw [Expander.expand, h.split?_of_hasScheme hscheme]

/-- A name in full is accepted for a full name exactly when the name is. -/
theorem Settled.accepts_expand (h : context.Settled) {full : String}
    (hfull : context.expander.expand full = full) :
    context.expander.accepts (context.expander.expand name) full =
      context.expander.accepts name full := by
  rw [Bool.eq_iff_iff, Expander.accepts_iff_of_expand_eq hfull,
    Expander.accepts_iff_of_expand_eq hfull, h.expand_expand]

/-- No other name becomes a keyword by expansion. -/
theorem Settled.expand_eq_keyword_iff (h : context.Settled) {keyword : String}
    (hkeyword : Keyword.isKeyword keyword = true) :
    context.expander.expand name = keyword ↔ name = keyword := by
  constructor
  · rintro rfl
    rcases h.expand_cases name with hsame | hscheme
    · exact hsame.symm
    · rw [hscheme.isKeyword] at hkeyword
      contradiction
  · rintro rfl
    exact Expander.expand_of_isKeyword hkeyword

/-- No other name becomes a name without a colon by expansion. -/
theorem Settled.eq_of_expand_noColon (h : context.Settled)
    (hcolon : ':' ∉ (context.expander.expand name).toList) : context.expander.expand name = name := by
  rcases h.expand_cases name with hsame | hscheme
  · exact hsame
  · exact absurd hscheme.contains hcolon

/-- No other name becomes the name of the document by expansion. -/
theorem Settled.expand_ne_document (h : context.Settled) (hname : name ≠ Keyword.document) :
    context.expander.expand name ≠ Keyword.document := by
  intro hexpand
  have hcolon : ':' ∉ (context.expander.expand name).toList := by
    rw [hexpand]
    decide
  exact hname ((h.eq_of_expand_noColon hcolon).symm.trans hexpand)

end Context

end LinkedPath
