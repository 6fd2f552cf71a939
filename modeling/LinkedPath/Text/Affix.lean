/-!
# Leading text

What is left of a text after a given beginning.  The main statement
`stripLead?_eq_some_iff` says that the remainder is the unique text that
completes the beginning to the whole.
-/

namespace LinkedPath.Text

/-- The remainder of `text` after `lead`, when `text` begins with `lead`. -/
def stripLead? (lead text : String) : Option String :=
  if text.startsWith lead then
    some (String.ofList (text.toList.drop lead.toList.length))
  else
    none

theorem stripLead?_eq_some_iff {lead text rest : String} :
    stripLead? lead text = some rest ↔ text = lead ++ rest := by
  unfold stripLead?
  constructor
  · intro h
    split at h
    · rename_i hstarts
      obtain ⟨tail, htail⟩ := String.startsWith_string_iff.1 hstarts
      cases h
      apply String.toList_inj.1
      simp [← htail]
    · contradiction
  · rintro rfl
    have hstarts : (lead ++ rest).startsWith lead = true :=
      String.startsWith_string_iff.2 (by simp)
    simp [hstarts]

theorem stripLead?_append (lead rest : String) :
    stripLead? lead (lead ++ rest) = some rest :=
  stripLead?_eq_some_iff.2 rfl

theorem stripLead?_eq_none_iff {lead text : String} :
    stripLead? lead text = none ↔ ∀ rest, text ≠ lead ++ rest := by
  constructor
  · rintro h rest rfl
    rw [stripLead?_append] at h
    contradiction
  · intro h
    cases hstrip : stripLead? lead text with
    | none => rfl
    | some rest => exact absurd (stripLead?_eq_some_iff.1 hstrip) (h rest)

end LinkedPath.Text
