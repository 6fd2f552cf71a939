import LinkedPath.Proofs.Query.Productions

/-!
# Ways to see a bracket group

Keys and values may hold the stops of their fields, so a text can be taken for
a bracket group in several ways.  One of them ends each field at the first stop
that can end it; it is there as soon as there is any way at all, and no other
way has a shorter key, or the same key and a shorter value
(`Group.Fits.exists_group?`).  So reading a group needs no second try:
`group?_eq_some_iff` says which group is read, `group?_eq_some_iff_chosen` that
it is the shortest one, and `group?_eq_none_iff` when there is none.
-/

namespace LinkedPath.Part

open Text (isBlank)

/-! ## Fields -/

theorem field?_eq_some_iff {stop : Char} {text field rest : List Char} :
    field? stop text = some (field, rest) ↔ IsField stop field ∧ text = field ++ stop :: rest := by
  constructor
  · intro h
    cases text with
    | nil => simp [field?] at h
    | cons c more =>
        have hstop := List.head?_dropWhile_not (· != stop) more
        have hsplit := List.takeWhile_append_dropWhile (p := (· != stop)) (l := more)
        unfold field? at h
        cases hdrop : more.dropWhile (· != stop) with
        | nil => simp [hdrop] at h
        | cons d behind =>
            rw [hdrop] at hstop hsplit
            simp only [hdrop, Option.some.injEq, Prod.mk.injEq] at h
            obtain ⟨rfl, rfl⟩ := h
            have hd : d = stop := by simpa using hstop
            subst hd
            refine ⟨⟨List.cons_ne_nil _ _, ?_⟩, ?_⟩
            · intro hmem
              simpa using List.mem_takeWhile_imp hmem
            · rw [List.cons_append, hsplit]
  · rintro ⟨hfield, rfl⟩
    exact hfield.field? rest

/-- Characters in front of a stop hold a field: all of them, or those up to an
earlier stop. -/
theorem exists_field?_append (stop : Char) {front : List Char} (h : front ≠ [])
    (rest : List Char) :
    ∃ field behind, field? stop (front ++ stop :: rest) = some (field, behind) ∧
      (field = front ∧ behind = rest ∨
        ∃ gap, front = field ++ stop :: gap ∧ behind = gap ++ stop :: rest) := by
  obtain ⟨c, more, rfl⟩ := List.exists_cons_of_ne_nil h
  by_cases hmem : stop ∈ more
  · obtain ⟨before, gap, rfl, hbefore⟩ := List.eq_append_cons_of_mem hmem
    refine ⟨c :: before, gap ++ stop :: rest, ?_, Or.inr ⟨gap, rfl, rfl⟩⟩
    simpa using field?_append_stop hbefore (gap ++ stop :: rest)
  · exact ⟨c :: more, rest, field?_append_stop hmem rest, Or.inl ⟨rfl, rfl⟩⟩

/-! ## The body of a group -/

theorem groupBody?_of_fields {body key behind value rest : List Char}
    (hkey : field? '=' body = some (key, behind))
    (hvalue : field? ']' behind = some (value, rest)) :
    groupBody? body = some (key, value, rest) := by
  simp [groupBody?, hkey, hvalue]

theorem groupBody?_eq_some_iff {body key value rest : List Char} :
    groupBody? body = some (key, value, rest) ↔
      IsField '=' key ∧ IsField ']' value ∧ body = key ++ '=' :: (value ++ ']' :: rest) := by
  constructor
  · intro h
    unfold groupBody? at h
    split at h
    · contradiction
    · rename_i found behind hkey
      obtain ⟨⟨text, left⟩, hvalue, hfound⟩ := Option.map_eq_some_iff.mp h
      obtain ⟨rfl, rfl, rfl⟩ : found = key ∧ text = value ∧ left = rest := by
        simpa using hfound
      obtain ⟨hkeyField, rfl⟩ := field?_eq_some_iff.mp hkey
      obtain ⟨hvalueField, rfl⟩ := field?_eq_some_iff.mp hvalue
      exact ⟨hkeyField, hvalueField, rfl⟩
  · rintro ⟨hkey, hvalue, rfl⟩
    exact groupBody?_of_fields (hkey.field? _) (hvalue.field? rest)

/-- A body that can be taken for a key and a value has those that are read, and
these are the same or shorter: where the key ends earlier, the rest of the
longer key goes to the value, so the value ends as well. -/
theorem exists_groupBody?_append {key value : List Char} (hkey : key ≠ []) (hvalue : value ≠ [])
    (rest : List Char) :
    ∃ key' value' rest',
      groupBody? (key ++ '=' :: (value ++ ']' :: rest)) = some (key', value', rest') ∧
        (key' = key ∧ value' = value ∧ rest' = rest ∨ key'.length < key.length ∨
          key'.length = key.length ∧ value'.length < value.length) := by
  obtain ⟨key', behind, hread, hcases⟩ :=
    exists_field?_append '=' hkey (value ++ ']' :: rest)
  obtain ⟨rfl, rfl⟩ | ⟨gap, rfl, rfl⟩ := hcases
  · obtain ⟨value', rest', hread', hcases'⟩ := exists_field?_append ']' hvalue rest
    refine ⟨key', value', rest', groupBody?_of_fields hread hread', ?_⟩
    obtain ⟨rfl, rfl⟩ | ⟨gap, rfl, rfl⟩ := hcases'
    · exact Or.inl ⟨rfl, rfl, rfl⟩
    · exact Or.inr (Or.inr ⟨rfl, by simp⟩)
  · have hlonger : gap ++ '=' :: value ≠ [] := by simp
    obtain ⟨value', rest', hread', -⟩ := exists_field?_append ']' hlonger rest
    rw [List.append_assoc, List.cons_append] at hread'
    exact ⟨key', value', rest', groupBody?_of_fields hread hread', Or.inr (Or.inl (by simp))⟩

/-! ## The lead of a group -/

theorem star_spec (text : List Char) :
    ((star text).1 = [] ∨ (star text).1 = ['*']) ∧ (star text).1 ++ (star text).2 = text := by
  unfold star
  split <;> simp

theorem group?_open (body : List Char) :
    group? ('[' :: body) =
      (groupBody? body).map fun (key, value, rest) => { lead := [], key, value, rest } :=
  IsLead.group? ⟨[], [], List.forall_mem_nil _, Or.inl rfl, rfl⟩ body

theorem exists_lead_of_group? {text : List Char} {group : Group} (h : group? text = some group) :
    IsLead group.lead ∧ ∃ body, text = group.lead ++ '[' :: body ∧
      groupBody? body = some (group.key, group.value, group.rest) := by
  obtain ⟨hmark, hrest⟩ := star_spec (text.dropWhile isBlank)
  simp only [Part.group?] at h
  split at h
  · rename_i body hbody
    obtain ⟨⟨key, value, rest⟩, hread, rfl⟩ := Option.map_eq_some_iff.mp h
    refine ⟨⟨_, _, fun c hc => List.mem_takeWhile_imp hc, hmark, rfl⟩, body, ?_, hread⟩
    rw [hbody] at hrest
    rw [List.append_assoc, hrest, List.takeWhile_append_dropWhile]
  · contradiction

/-! ## Groups -/

namespace Group

/-- The text that a group stands for, with all that follows it. -/
def whole (group : Group) : List Char :=
  group.lead ++ '[' :: (group.key ++ '=' :: (group.value ++ ']' :: group.rest))

/-- A way to take a text for a bracket group. -/
structure Fits (group : Group) (text : List Char) : Prop where
  lead : IsLead group.lead
  key : group.key ≠ []
  value : group.value ≠ []
  whole : text = group.whole

/-- The key is shorter, or it is as long and the value is not longer. -/
def AtMost (group other : Group) : Prop :=
  group.key.length < other.key.length ∨
    group.key.length = other.key.length ∧ group.value.length ≤ other.value.length

/-- Of all ways to take a text for a bracket group, the one with the shortest
key and then the shortest value. -/
structure Chosen (group : Group) (text : List Char) : Prop where
  fits : group.Fits text
  first : ∀ other : Group, other.Fits text → group.AtMost other

variable {group : Group} {text : List Char}

/-- Where a group fits, a group is read: this one, or one with a shorter key, or
one with as long a key and a shorter value. -/
theorem Fits.exists_group? (h : group.Fits text) :
    ∃ found, group? text = some found ∧
      (found = group ∨ found.key.length < group.key.length ∨
        found.key.length = group.key.length ∧ found.value.length < group.value.length) := by
  obtain ⟨key', value', rest', hread, hcases⟩ :=
    exists_groupBody?_append h.key h.value group.rest
  refine ⟨{ lead := group.lead, key := key', value := value', rest := rest' }, ?_, ?_⟩
  · rw [h.whole, Group.whole, h.lead.group?, hread]
    rfl
  · obtain ⟨rfl, rfl, rfl⟩ | hshorter := hcases
    · exact Or.inl rfl
    · exact Or.inr hshorter

end Group

variable {text : List Char} {group : Group}

/-- The group that is read fits, and each of its fields ends at the first stop
behind its first character. -/
theorem group?_eq_some_iff :
    group? text = some group ↔
      group.Fits text ∧ '=' ∉ group.key.tail ∧ ']' ∉ group.value.tail := by
  constructor
  · intro h
    obtain ⟨hlead, body, rfl, hbody⟩ := exists_lead_of_group? h
    obtain ⟨hkey, hvalue, rfl⟩ := groupBody?_eq_some_iff.mp hbody
    exact ⟨⟨hlead, hkey.1, hvalue.1, rfl⟩, hkey.2, hvalue.2⟩
  · rintro ⟨hfits, hkey, hvalue⟩
    have hread : groupBody? (group.key ++ '=' :: (group.value ++ ']' :: group.rest)) =
        some (group.key, group.value, group.rest) :=
      groupBody?_eq_some_iff.mpr ⟨⟨hfits.key, hkey⟩, ⟨hfits.value, hvalue⟩, rfl⟩
    rw [hfits.whole, Group.whole, hfits.lead.group?, hread]
    rfl

/-- No group is read exactly when no group fits. -/
theorem group?_eq_none_iff : group? text = none ↔ ∀ group : Group, ¬ group.Fits text := by
  constructor
  · intro h group hfits
    obtain ⟨found, hread, -⟩ := hfits.exists_group?
    rw [h] at hread
    contradiction
  · intro h
    cases hread : group? text with
    | none => rfl
    | some found => exact absurd (group?_eq_some_iff.mp hread).1 (h found)

/-- The group that is read is the shortest one that fits. -/
theorem group?_eq_some_iff_chosen : group? text = some group ↔ group.Chosen text := by
  constructor
  · intro h
    refine ⟨(group?_eq_some_iff.mp h).1, ?_⟩
    intro other hother
    obtain ⟨found, hread, hcases⟩ := hother.exists_group?
    obtain rfl : group = found := by simpa [h] using hread
    obtain rfl | hkey | ⟨hkey, hvalue⟩ := hcases
    · exact Or.inr ⟨rfl, le_rfl⟩
    · exact Or.inl hkey
    · exact Or.inr ⟨hkey, hvalue.le⟩
  · intro h
    obtain ⟨found, hread, rfl | hshorter⟩ := h.fits.exists_group?
    · exact hread
    · -- A shorter group cannot fit as well.
      have hfirst := h.first found (group?_eq_some_iff.mp hread).1
      unfold Group.AtMost at hfirst
      omega

end LinkedPath.Part
