import LinkedPath.Proofs.Context.Expansion

/-!
# The two spellings of a name

`Expands` states the rules of expansion without computing anything: keywords
stay, the first head that starts a name goes over into its full form, the
vocabulary is for bare names, and whatever is left stays.  The rules leave no
choice, and `expand` follows them (`expands_iff`).

A document name is compared with a full name in place: the beginning of the
full form is taken off the text on the other side, and no expansion is built.
`accepts_iff_spelled_or_expands` says that nothing gets lost or added that way,
whatever the heads and the vocabulary look like.
-/

namespace LinkedPath
namespace Expander

variable {expander : Expander} {name full : String}

/-- A bare name is not empty and has no colon. -/
theorem isBare_iff : isBare name = true ↔ name ≠ "" ∧ ':' ∉ name.toList := by
  rw [isBare, Bool.and_eq_true, Bool.not_eq_true', Bool.not_eq_true', List.contains_eq_mem,
    decide_eq_false_iff_not, ← Bool.not_eq_true, String.isEmpty_iff]

/-- What a name expands to. -/
inductive Expands (expander : Expander) (name : String) : String → Prop
  /-- A keyword stays as it is. -/
  | keyword (hkeyword : Keyword.isKeyword name = true) : Expands expander name name
  /-- The first head that starts the name makes room for the beginning that it
  stands for. -/
  | head {before after : List (String × String)} {head iri tail : String}
      (hkeyword : Keyword.isKeyword name = false)
      (hheads : expander.heads = before ++ (head, iri) :: after)
      (hbefore : Unheaded before name) (hname : name = head ++ tail) :
      Expands expander name (iri ++ tail)
  /-- A bare name is one of the vocabulary. -/
  | vocab {vocab : String} (hkeyword : Keyword.isKeyword name = false)
      (hheads : Unheaded expander.heads name) (hempty : name ≠ "") (hcolon : ':' ∉ name.toList)
      (hvocab : expander.vocab? = some vocab) : Expands expander name (vocab ++ name)
  /-- Any other name stays as it is. -/
  | other (hkeyword : Keyword.isKeyword name = false) (hheads : Unheaded expander.heads name)
      (hvocab : name = "" ∨ ':' ∈ name.toList ∨ expander.vocab? = none) :
      Expands expander name name

theorem split?_of_unheaded (hkeyword : Keyword.isKeyword name = false)
    (hheads : Unheaded expander.heads name) :
    expander.split? name =
      if isBare name then expander.vocab?.map fun vocab => (vocab, name) else none := by
  rw [split?, hkeyword, splitHead?_eq_none_iff.mpr hheads]
  rfl

/-- The rules leave no choice. -/
theorem Expands.expand_eq (h : Expands expander name full) : expander.expand name = full := by
  cases h with
  | keyword hkeyword => exact expand_of_isKeyword hkeyword
  | head hkeyword hheads hbefore hname =>
      have hfound := splitHead?_eq_some_iff.mpr ⟨_, _, _, hheads, hbefore, hname⟩
      rw [expand, split?, hkeyword, hfound]
      rfl
  | vocab hkeyword hheads hempty hcolon hvocab =>
      have hbare : isBare name = true := isBare_iff.mpr ⟨hempty, hcolon⟩
      rw [expand, split?_of_unheaded hkeyword hheads, hbare, hvocab]
      rfl
  | other hkeyword hheads hvocab =>
      rw [expand, split?_of_unheaded hkeyword hheads]
      rcases hvocab with hempty | hcolon | hnone
      · have hbare : isBare name = false := by
          rw [← Bool.not_eq_true, isBare_iff]
          exact fun h => h.1 hempty
        rw [hbare]
        rfl
      · have hbare : isBare name = false := by
          rw [← Bool.not_eq_true, isBare_iff]
          exact fun h => h.2 hcolon
        rw [hbare]
        rfl
      · simp [hnone]

/-- Some rule always applies, and expansion follows it. -/
theorem expands_expand (expander : Expander) (name : String) :
    Expands expander name (expander.expand name) := by
  cases hkeyword : Keyword.isKeyword name with
  | true =>
      rw [expand_of_isKeyword hkeyword]
      exact .keyword hkeyword
  | false =>
      cases hfound : splitHead? name expander.heads with
      | some found =>
          obtain ⟨iri, tail⟩ := found
          obtain ⟨before, head, after, hheads, hbefore, hname⟩ := splitHead?_eq_some_iff.mp hfound
          have h := Expands.head hkeyword hheads hbefore hname
          rwa [h.expand_eq]
      | none =>
          have hheads := splitHead?_eq_none_iff.mp hfound
          -- The vocabulary counts for bare names only.
          by_cases hleft : name = "" ∨ ':' ∈ name.toList ∨ expander.vocab? = none
          · have h := Expands.other hkeyword hheads hleft
            rwa [h.expand_eq]
          · obtain ⟨hempty, hrest⟩ := not_or.mp hleft
            obtain ⟨hcolon, hsome⟩ := not_or.mp hrest
            obtain ⟨vocab, hvocab⟩ := Option.ne_none_iff_exists'.mp hsome
            have h := Expands.vocab hkeyword hheads hempty hcolon hvocab
            rwa [h.expand_eq]

theorem expands_iff : Expands expander name full ↔ expander.expand name = full := by
  constructor
  · exact Expands.expand_eq
  · rintro rfl
    exact expands_expand expander name

/-- Comparing in place accepts a name for a full name exactly when the name is
spelled so or expands to it by the rules, so a name and its expansion are both
accepted for the expansion. -/
theorem accepts_iff_spelled_or_expands (expander : Expander) (name full : String) :
    (expander.accepts name full = true ↔ name = full ∨ expander.expand name = full) ∧
      (expander.expand name = full ↔ Expands expander name full) ∧
      expander.accepts name (expander.expand name) = true ∧
      expander.accepts (expander.expand name) (expander.expand name) = true := by
  refine ⟨accepts_iff, expands_iff.symm, ?_, ?_⟩
  · exact accepts_iff.mpr (Or.inr rfl)
  · exact accepts_iff.mpr (Or.inl rfl)

-- The first head counts, although another one would give the same text here, and an
-- expansion that has a head itself is not expanded once more.
example :
    let expander : Expander :=
      { heads := [("a:", "b:"), ("b:", "c:"), ("a:x", "b:x")], vocab? := none }
    expander.accepts "a:xy" "b:xy" = true ∧ expander.accepts "a:xy" "c:xy" = false := by
  decide +kernel

end Expander
end LinkedPath
