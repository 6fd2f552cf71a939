import LinkedPath.Proofs.Query.Groups

/-!
# Brackets without an equals sign

A word in brackets has no equals sign to end a key at, so it is a segment.  But
the search for the sign does not stop where the bracket closes: if an equals
sign and a closing bracket follow anywhere behind it, the key runs from the word
over all that stands in between (`split_bracketed_iff`).
-/

namespace LinkedPath.Part

open Text (isBlank trim trimStart trimEnd)

/-- A word that brackets can enclose. -/
def IsWord (text : List Char) : Prop :=
  text ≠ [] ∧ ∀ c ∈ text, isBlank c = false ∧ c ∉ ['[', ']', '=', '>']

-- Decided along the text.  There are finitely many characters, so the instance
-- that is found by itself can be the one that tries all of them.
instance (text : List Char) : Decidable (IsWord text) :=
  @instDecidableAnd _ _ _ (List.decidableBAll _ text)

/-- Somewhere in the text an equals sign ends a key that was begun before it,
and a closing bracket ends the value. -/
def EndsKey (text : List Char) : Prop :=
  ∃ key value rest, value ≠ [] ∧ text = key ++ '=' :: (value ++ ']' :: rest)

variable {text rest : List Char}

/-! ## Ends of keys -/

theorem EndsKey.append (h : EndsKey text) (front behind : List Char) :
    EndsKey (front ++ (text ++ behind)) := by
  obtain ⟨key, value, rest, hvalue, rfl⟩ := h
  exact ⟨front ++ key, value, rest ++ behind, hvalue, by simp⟩

theorem trimEnd_field (key value rest : List Char) :
    trimEnd (key ++ '=' :: (value ++ ']' :: rest)) =
      key ++ '=' :: (value ++ ']' :: trimEnd rest) := by
  have hsplit : ∀ more, key ++ '=' :: (value ++ ']' :: more) =
      (key ++ '=' :: value) ++ ']' :: more := by simp
  rw [hsplit, Text.trimEnd_append_cons _ isBlank_close, ← hsplit]

theorem endsKey_trimEnd_iff : EndsKey (trimEnd rest) ↔ EndsKey rest := by
  constructor
  · intro h
    obtain ⟨behind, happend⟩ := Text.trimEnd_isPrefix rest
    simpa [happend] using h.append [] behind
  · rintro ⟨key, value, left, hvalue, rfl⟩
    exact ⟨key, value, trimEnd left, hvalue, trimEnd_field key value left⟩

/-- A text without an end of a key does not begin with a group. -/
theorem group?_eq_none_of_not_endsKey (h : ¬ EndsKey text) : group? text = none := by
  rw [group?_eq_none_iff]
  intro group hfits
  refine h ⟨group.lead ++ '[' :: group.key, group.value, group.rest, hfits.value, ?_⟩
  simp [hfits.whole, Group.whole]

theorem IsWord.equals_not_mem (h : IsWord text) : '=' ∉ text ++ [']'] := by
  intro hmem
  obtain htext | hclose := List.mem_append.mp hmem
  · exact (h.2 '=' htext).2 (by decide)
  · simp at hclose

/-- Brackets around a word hold no equals sign, so a key that begins in them ends
behind them. -/
theorem IsWord.endsKey_iff (h : IsWord text) :
    EndsKey (text ++ ']' :: rest) ↔ EndsKey rest := by
  constructor
  · rintro ⟨key, value, left, hvalue, heq⟩
    have hbracketed : (text ++ [']']) ++ rest = key ++ '=' :: (value ++ ']' :: left) := by
      simpa using heq
    obtain ⟨more, rfl, hrest⟩ | ⟨more, hword, hrest⟩ := List.append_eq_append_iff.mp hbracketed
    · exact ⟨more, value, left, hvalue, hrest⟩
    · -- The sign would be the first character of `more`, in the brackets or behind them.
      cases more with
      | nil => exact ⟨[], value, left, hvalue, by simpa using hrest.symm⟩
      | cons c more =>
          obtain ⟨rfl, -⟩ := List.cons.inj hrest
          exact absurd (by simp [hword]) h.equals_not_mem
  · intro hrest
    simpa using hrest.append (text ++ [']']) []

/-- A first sign ends the key, and behind it a first bracket ends the value. -/
theorem EndsKey.exists_first (h : EndsKey rest) :
    ∃ key value left, '=' ∉ key ∧ IsField ']' value ∧
      rest = key ++ '=' :: (value ++ ']' :: left) := by
  obtain ⟨key, value, left, hvalue, rfl⟩ := h
  have hmem : '=' ∈ key ++ '=' :: (value ++ ']' :: left) := by simp
  obtain ⟨first, behind, heq, hfirst⟩ := List.eq_append_cons_of_mem hmem
  -- Behind the first sign there is at least what is behind the given one.
  have hbehind : ∃ longer, longer ≠ [] ∧ behind = longer ++ ']' :: left := by
    obtain ⟨more, rfl, hmore⟩ | ⟨more, rfl, hmore⟩ := List.append_eq_append_iff.mp heq
    · cases more with
      | nil => exact ⟨value, hvalue, by simpa using hmore.symm⟩
      | cons c more =>
          obtain ⟨rfl, -⟩ := List.cons.inj hmore
          exact absurd (by simp) hfirst
    · cases more with
      | nil => exact ⟨value, hvalue, by simpa using hmore⟩
      | cons c more =>
          obtain ⟨-, rfl⟩ := List.cons.inj hmore
          exact ⟨more ++ '=' :: value, by simp, by simp⟩
  obtain ⟨longer, hlonger, rfl⟩ := hbehind
  obtain ⟨field, close, hread, -⟩ := exists_field?_append ']' hlonger left
  obtain ⟨hfield, hclose⟩ := field?_eq_some_iff.mp hread
  exact ⟨first, field, close, hfirst, hfield, by rw [heq, hclose]⟩

/-! ## Words in brackets -/

theorem IsWord.group?_eq_none (h : IsWord text) (hrest : ¬ EndsKey rest) :
    group? ('[' :: (text ++ ']' :: rest)) = none := by
  have hbody : groupBody? (text ++ ']' :: rest) = none := by
    rw [Option.eq_none_iff_forall_ne_some]
    rintro ⟨key, value, left⟩ hread
    obtain ⟨-, hvalue, heq⟩ := groupBody?_eq_some_iff.mp hread
    exact hrest (h.endsKey_iff.mp ⟨key, value, left, hvalue.1, heq⟩)
  rw [group?_open, hbody, Option.map_none]

/-- Where nothing ends a key, the brackets are read with the word. -/
theorem IsWord.scan_segment (h : IsWord text) (hrest : ¬ EndsKey rest)
    (hbehind : ∀ c, rest.head? = some c → isBlank c = true) :
    scan ('[' :: (text ++ ']' :: rest)) =
      segment (String.ofList ('[' :: (text ++ [']']))) :: scan rest := by
  have hchild : childRest? ('[' :: (text ++ ']' :: rest)) = none := by
    simp [childRest?]
  have hvisible : ∀ c ∈ '[' :: (text ++ [']']), isBlank c = false := by
    have htext : ∀ c ∈ text, isBlank c = false := fun c hc => (h.2 c hc).1
    simpa [or_imp, forall_and] using htext
  have hinside : ∀ c ∈ text ++ [']'], endsSegment c = false := by
    intro c hc
    rw [endsSegment_eq_false_iff]
    obtain htext | hclose := List.mem_append.mp hc
    · obtain ⟨hblank, hsign⟩ := h.2 c htext
      simp only [List.mem_cons, not_or] at hsign
      exact ⟨hblank, hsign.1, hsign.2.2.2.1⟩
    · obtain rfl := List.mem_singleton.mp hclose
      decide
  have hends : ∀ c, rest.head? = some c → endsSegment c = true := by
    intro c hc
    simp [endsSegment, hbehind c hc]
  obtain ⟨htake, hdrop⟩ := span_segment hinside hends
  rw [List.append_assoc, List.singleton_append] at htake hdrop
  rw [scan_of_segment (h.group?_eq_none hrest) hchild, htake, hdrop,
    ofSegment_of_visible (List.cons_ne_nil _ _) hvisible]
  rfl

/-- Where an equals sign ends the key, the key runs over the bracket that closes
the word. -/
theorem IsWord.scan_predicate (h : IsWord text) {key value : List Char} (hkey : '=' ∉ key)
    (hvalue : IsField ']' value) (left : List Char) :
    scan ('[' :: (text ++ ']' :: (key ++ '=' :: (value ++ ']' :: left)))) =
      predicate (String.ofList (trim (text ++ ']' :: key))) (String.ofList (trim value)) ::
        scan left := by
  have hlong : '=' ∉ text ++ ']' :: key := by
    have hword := h.equals_not_mem
    simp only [List.mem_append, List.mem_cons, List.not_mem_nil, or_false, not_or] at hword ⊢
    exact ⟨hword.1, hword.2, hkey⟩
  have hfield : IsField '=' (text ++ ']' :: key) := ⟨by simp, mt List.mem_of_mem_tail hlong⟩
  have hgroup := group?_bracket left (List.forall_mem_nil _) (Or.inl rfl) hfield hvalue
  simp only [List.nil_append, List.append_assoc, List.cons_append] at hgroup
  rw [scan_of_group? hgroup]
  rfl

theorem trim_bracketed (text rest : List Char) :
    trim ('[' :: (text ++ ']' :: rest)) = '[' :: (text ++ ']' :: trimEnd rest) := by
  rw [trim, Text.trimStart_cons_of_not_blank isBlank_open, ← List.cons_append,
    Text.trimEnd_append_cons _ isBlank_close, List.cons_append]

/-- A bracketed word that blanks or nothing follow is a segment, and what follows
is read as if it stood alone, exactly when nothing behind the word ends a key.
Otherwise the first equals sign and the first bracket that can close the value
make a predicate of all up to there. -/
theorem split_bracketed_iff (hword : IsWord text)
    (hbehind : ∀ c, rest.head? = some c → isBlank c = true) :
    (split (String.ofList ('[' :: (text ++ ']' :: rest))) =
        segment (String.ofList ('[' :: (text ++ [']']))) :: split (String.ofList rest) ↔
      ¬ EndsKey rest) ∧
    ∀ key value left, '=' ∉ key → IsField ']' value →
      rest = key ++ '=' :: (value ++ ']' :: left) →
        split (String.ofList ('[' :: (text ++ ']' :: rest))) =
          predicate (String.ofList (trim (text ++ ']' :: key))) (String.ofList (trim value)) ::
            scan (trimEnd left) := by
  have hsplit : ∀ rest, split (String.ofList ('[' :: (text ++ ']' :: rest))) =
      scan ('[' :: (text ++ ']' :: trimEnd rest)) := by
    intro rest
    rw [split, String.toList_ofList, trim_bracketed]
  have hpredicate : ∀ key value left, '=' ∉ key → IsField ']' value →
      rest = key ++ '=' :: (value ++ ']' :: left) →
        split (String.ofList ('[' :: (text ++ ']' :: rest))) =
          predicate (String.ofList (trim (text ++ ']' :: key))) (String.ofList (trim value)) ::
            scan (trimEnd left) := by
    rintro key value left hkey hvalue rfl
    rw [hsplit, trimEnd_field key value left, hword.scan_predicate hkey hvalue]
  refine ⟨⟨?_, ?_⟩, hpredicate⟩
  · intro hsegment hends
    obtain ⟨key, value, left, hkey, hvalue, heq⟩ := hends.exists_first
    rw [hpredicate key value left hkey hvalue heq] at hsegment
    simp at hsegment
  · intro hends
    have htrimmed : ¬ EndsKey (trimEnd rest) := mt endsKey_trimEnd_iff.mp hends
    have hblank : ∀ c, (trimEnd rest).head? = some c → isBlank c = true := by
      intro c hc
      apply hbehind
      obtain ⟨behind, happend⟩ := Text.trimEnd_isPrefix rest
      rw [← happend, List.head?_append, hc, Option.some_or]
    rw [hsplit, hword.scan_segment htrimmed hblank, split, String.toList_ofList,
      ← Text.trimStart_trimEnd, scan_trimStart (group?_eq_none_of_not_endsKey htrimmed)]

/-- A group behind the word that is not closed ends no key. -/
theorem split_bracketed_iff_open :
    let text := "oops".toList
    let rest := " a[k=v".toList
    IsWord text ∧ (∀ c, rest.head? = some c → isBlank c = true) ∧ ¬ EndsKey rest ∧
      split "[oops] a[k=v" = segment "[oops]" :: split " a[k=v" := by
  intro text rest
  have hword : IsWord text := by decide
  have hbehind : ∀ c, rest.head? = some c → isBlank c = true := by
    simp [rest]
  have hends : ¬ EndsKey rest := by
    rintro ⟨key, value, left, -, heq⟩
    have hmem : ']' ∈ rest := by simp [heq]
    exact absurd hmem (by decide)
  exact ⟨hword, hbehind, hends, (split_bracketed_iff hword hbehind).1.mpr hends⟩

/-- A predicate behind the word takes the word into its key. -/
theorem not_split_bracketed_before_group :
    IsWord "oops".toList ∧ isBlank ' ' = true ∧
      split "[oops] a[k=v]" = [predicate "oops] a[k" "v"] ∧
      ¬ ∀ text rest : List Char, IsWord text →
        (∀ c, rest.head? = some c → isBlank c = true) →
          split (String.ofList ('[' :: (text ++ ']' :: rest))) =
            segment (String.ofList ('[' :: (text ++ [']']))) :: split (String.ofList rest) := by
  have hword : IsWord "oops".toList := by decide
  have hround : round^[1] ([], trim "[oops] a[k=v]".toList) =
      ([predicate "oops] a[k" "v"], []) := by decide
  have hsplit : split "[oops] a[k=v]" = [predicate "oops] a[k" "v"] := split_eq_of_rounds hround
  refine ⟨hword, by decide, hsplit, ?_⟩
  intro h
  have hsegment := h "oops".toList " a[k=v]".toList hword (by simp)
  have hparts : [predicate "oops] a[k" "v"] = segment "[oops]" :: split " a[k=v]" :=
    hsplit.symm.trans hsegment
  simp at hparts

end LinkedPath.Part
