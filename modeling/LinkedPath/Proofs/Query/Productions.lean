import Mathlib.Logic.Function.Iterate
import LinkedPath.Proofs.Text.Blank
import LinkedPath.Query.Part

/-!
# The parts at the start of a text

A text begins with a bracket group, with a combinator or with a segment, and
they are tried in this order.  For each of the three there is one rule on how
the reading goes on behind it (`scan_of_group?`, `scan_of_childRest?`,
`scan_of_segment`), and a text of its shape is read so whatever follows.
-/

namespace LinkedPath.Part

open Text (isBlank trim trimStart)

/-! ## The signs of the grammar are not blank -/

@[simp] theorem isBlank_star : isBlank '*' = false := by decide

@[simp] theorem isBlank_open : isBlank '[' = false := by decide

@[simp] theorem isBlank_equals : isBlank '=' = false := by decide

@[simp] theorem isBlank_close : isBlank ']' = false := by decide

@[simp] theorem isBlank_combinator : isBlank '>' = false := by decide

/-! ## Reading on -/

theorem scan_of_group? {text : List Char} {group : Group} (h : group? text = some group) :
    scan text = ofGroup group ++ scan group.rest := by
  cases text with
  | nil => simp [group?, star] at h
  | cons c rest => simp [scan_cons, next, h]

theorem scan_of_childRest? {text rest : List Char} (hgroup : group? text = none)
    (h : childRest? text = some rest) : scan text = child :: scan rest := by
  cases text with
  | nil => simp [childRest?] at h
  | cons c more => simp [scan_cons, next, hgroup, h]

theorem scan_of_segment {c : Char} {rest : List Char} (hgroup : group? (c :: rest) = none)
    (hchild : childRest? (c :: rest) = none) :
    scan (c :: rest) =
      ofSegment (c :: rest.takeWhile fun d => !endsSegment d) ++
        scan (rest.dropWhile fun d => !endsSegment d) := by
  simp [scan_cons, next, hgroup, hchild]

/-! ## Rounds of reading -/

/-- One round of reading: the parts so far, and what has not been read. -/
def round : List Part × List Char → List Part × List Char
  | (parts, []) => (parts, [])
  | (parts, c :: rest) => (parts ++ (next c rest).1, (next c rest).2)

/-- A round does not change what the parts will be in the end. -/
theorem scan_round (state : List Part × List Char) :
    (round state).1 ++ scan (round state).2 = state.1 ++ scan state.2 := by
  obtain ⟨parts, text⟩ := state
  cases text with
  | nil => rfl
  | cons c rest => rw [round, scan_cons, List.append_assoc]

theorem scan_rounds (n : Nat) (state : List Part × List Char) :
    (round^[n] state).1 ++ scan (round^[n] state).2 = state.1 ++ scan state.2 := by
  induction n generalizing state with
  | zero => rfl
  | succ n ih => rw [Function.iterate_succ_apply, ih, scan_round]

/-- The parts are known when rounds have left nothing to read. -/
theorem split_eq_of_rounds {n : Nat} {query : String} {parts : List Part}
    (h : round^[n] ([], trim query.toList) = (parts, [])) : split query = parts := by
  have hscan := scan_rounds n ([], trim query.toList)
  rw [h, scan_nil, List.append_nil, List.nil_append] at hscan
  exact hscan.symm

/-! ## Bracket groups -/

/-- A field ends with the first stop behind its first character. -/
theorem field?_append_stop {stop c : Char} {text : List Char} (h : stop ∉ text)
    (rest : List Char) : field? stop (c :: (text ++ stop :: rest)) = some (c :: text, rest) := by
  have hfield : ∀ d ∈ text, (d != stop) = true := by
    intro d hd
    simp only [bne_iff_ne]
    intro heq
    exact h (heq ▸ hd)
  have htake : (text ++ stop :: rest).takeWhile (· != stop) = text := by
    simp [List.takeWhile_append_of_pos hfield]
  have hdrop : (text ++ stop :: rest).dropWhile (· != stop) = stop :: rest := by
    simp [List.dropWhile_append_of_pos hfield]
  simp [field?, htake, hdrop]

/-- What a field holds: at least one character, and no stop behind the
first one. -/
def IsField (stop : Char) (text : List Char) : Prop :=
  text ≠ [] ∧ stop ∉ text.tail

theorem IsField.field? {stop : Char} {text : List Char} (h : IsField stop text)
    (rest : List Char) : field? stop (text ++ stop :: rest) = some (text, rest) := by
  cases text with
  | nil => exact absurd rfl h.1
  | cons c text => exact field?_append_stop h.2 rest

/-- Blanks, and at most one star behind them. -/
def IsLead (lead : List Char) : Prop :=
  ∃ gap mark, (∀ c ∈ gap, isBlank c = true) ∧ (mark = [] ∨ mark = ['*']) ∧ lead = gap ++ mark

/-- What stands in front of a bracket is its lead in one way only. -/
theorem IsLead.group? {lead : List Char} (h : IsLead lead) (body : List Char) :
    group? (lead ++ '[' :: body) =
      (groupBody? body).map fun (key, value, rest) => { lead, key, value, rest } := by
  obtain ⟨gap, mark, hgap, hmark, rfl⟩ := h
  obtain rfl | rfl := hmark
  · simp [Part.group?, List.takeWhile_append_of_pos hgap, List.dropWhile_append_of_pos hgap, star]
  · simp [Part.group?, List.takeWhile_append_of_pos hgap, List.dropWhile_append_of_pos hgap, star]

/-- A bracket group is found behind blanks and an optional star, with the first
equals sign and the first closing bracket that can end its fields. -/
theorem group?_bracket {gap mark key value : List Char} (rest : List Char)
    (hgap : ∀ d ∈ gap, isBlank d = true) (hmark : mark = [] ∨ mark = ['*'])
    (hkey : IsField '=' key) (hvalue : IsField ']' value) :
    group? (gap ++ (mark ++ '[' :: (key ++ '=' :: (value ++ ']' :: rest)))) =
      some { lead := gap ++ mark, key, value, rest } := by
  have hbody : groupBody? (key ++ '=' :: (value ++ ']' :: rest)) = some (key, value, rest) := by
    simp [groupBody?, hkey.field?, hvalue.field?]
  have hlead : IsLead (gap ++ mark) := ⟨gap, mark, hgap, hmark, rfl⟩
  rw [← List.append_assoc, hlead.group?, hbody, Option.map_some]

/-- A text without a bracket behind its blanks and its star is no group. -/
theorem group?_eq_none {text : List Char}
    (h : (star (trimStart text)).2.head? ≠ some '[') : group? text = none := by
  unfold group?
  simp only
  split
  · rename_i body hbody
    exact absurd (by rw [trimStart, hbody]; rfl) h
  · rfl

theorem star_of_ne {c : Char} (h : c ≠ '*') (text : List Char) :
    star (c :: text) = ([], c :: text) := by
  unfold star
  split
  · rename_i heq
    exact absurd (List.cons.inj heq).1 h
  · rfl

/-! ## Combinators -/

theorem childRest?_combinator {gap : List Char} (rest : List Char)
    (hgap : ∀ d ∈ gap, isBlank d = true) :
    childRest? (gap ++ '>' :: rest) = some (trimStart rest) := by
  simp [childRest?, Text.trimStart_append_of_blank hgap]

theorem group?_combinator {gap : List Char} (rest : List Char)
    (hgap : ∀ d ∈ gap, isBlank d = true) : group? (gap ++ '>' :: rest) = none := by
  apply group?_eq_none
  rw [Text.trimStart_append_of_blank hgap, Text.trimStart_cons_of_not_blank isBlank_combinator]
  simp [star]

theorem childRest?_eq_none {text : List Char} (h : (trimStart text).head? ≠ some '>') :
    childRest? text = none := by
  unfold childRest?
  split
  · rename_i rest hrest
    exact absurd (by rw [hrest]; rfl) h
  · rfl

/-- A combinator takes the blanks around it, and nothing else. -/
theorem childRest?_eq_some_iff {text rest : List Char} :
    childRest? text = some rest ↔
      ∃ gap behind, (∀ c ∈ gap, isBlank c = true) ∧ (∀ c ∈ behind, isBlank c = true) ∧
        (∀ c, rest.head? = some c → isBlank c = false) ∧
          text = gap ++ '>' :: (behind ++ rest) := by
  constructor
  · intro h
    unfold childRest? at h
    split at h
    · rename_i left hstart
      obtain ⟨-, gap, hgap, rfl⟩ := Text.exists_of_trimStart_eq_cons hstart
      obtain ⟨behind, hbehind, happend⟩ := Text.exists_append_trimStart left
      obtain rfl := Option.some.inj h
      exact ⟨gap, behind, hgap, hbehind, fun c hc => Text.isBlank_of_head?_trimStart hc,
        by rw [← happend]⟩
    · contradiction
  · rintro ⟨gap, behind, hgap, hbehind, hhead, rfl⟩
    rw [childRest?_combinator _ hgap, Text.trimStart_append_of_blank hbehind,
      Text.trimStart_eq_self hhead]

theorem scan_combinator {gap : List Char} (rest : List Char)
    (hgap : ∀ d ∈ gap, isBlank d = true) :
    scan (gap ++ '>' :: rest) = child :: scan (trimStart rest) :=
  scan_of_childRest? (group?_combinator rest hgap) (childRest?_combinator rest hgap)

/-! ## Segments -/

theorem ofSegment_eq (text : List Char) :
    ofSegment text =
      if text.all isBlank then [] else [segment (String.ofList (trim text))] := by
  have hblank : text.all isBlank = true ↔ trim text = [] := by
    rw [List.all_eq_true, Text.trim_eq_nil_iff]
  rw [ofSegment]
  split
  · rename_i htrim
    rw [if_pos (hblank.mpr htrim)]
  · rename_i c rest htrim
    rw [if_neg (mt hblank.mp (by simp [htrim])), htrim]

theorem ofSegment_cons_of_blank {c : Char} (hc : isBlank c = true) (text : List Char) :
    ofSegment (c :: text) = ofSegment text := by
  rw [ofSegment, ofSegment, Text.trim_cons_of_blank hc]

/-- The part of a text without blanks. -/
theorem ofSegment_of_visible {text : List Char} (hne : text ≠ [])
    (htext : ∀ d ∈ text, isBlank d = false) :
    ofSegment text = [segment (String.ofList text)] := by
  obtain ⟨c, more, rfl⟩ := List.exists_cons_of_ne_nil hne
  simp [ofSegment, Text.trim_eq_self htext]

theorem endsSegment_eq_false_iff (c : Char) :
    endsSegment c = false ↔ isBlank c = false ∧ c ≠ '[' ∧ c ≠ '>' := by
  simp [endsSegment, and_assoc]

/-! ## Blanks in front -/

theorem group?_cons_of_blank {c : Char} (hc : isBlank c = true) (text : List Char) :
    group? (c :: text) = (group? text).map fun group => { group with lead := c :: group.lead } := by
  simp only [group?, List.takeWhile_cons, List.dropWhile_cons, hc, if_true]
  split
  · simp [Function.comp_def]
  · rfl

theorem childRest?_cons_of_blank {c : Char} (hc : isBlank c = true) (text : List Char) :
    childRest? (c :: text) = childRest? text := by
  simp [childRest?, hc]

/-- A blank that is no lead leaves no part: a combinator takes it, a segment
drops it when it is trimmed, and elsewhere it is a segment of its own. -/
theorem scan_cons_of_blank {c : Char} {text : List Char} (hc : isBlank c = true)
    (h : group? (c :: text) = none) : scan (c :: text) = scan text := by
  have hgroup : group? text = none := by
    simpa [group?_cons_of_blank hc] using h
  cases hchild : childRest? text with
  | some left =>
      have hfirst : childRest? (c :: text) = some left := by
        rw [childRest?_cons_of_blank hc, hchild]
      rw [scan_of_childRest? h hfirst, scan_of_childRest? hgroup hchild]
  | none =>
      have hfirst : childRest? (c :: text) = none := by
        rw [childRest?_cons_of_blank hc, hchild]
      rw [scan_of_segment h hfirst, ofSegment_cons_of_blank hc]
      cases text with
      | nil => simp [ofSegment]
      | cons d more =>
          cases hends : endsSegment d with
          | true => simp [hends, ofSegment]
          | false => simp [hends, scan_of_segment hgroup hchild]

theorem scan_trimStart {text : List Char} (h : group? text = none) :
    scan (trimStart text) = scan text := by
  induction text with
  | nil => rfl
  | cons c rest ih =>
      cases hc : isBlank c with
      | false => rw [Text.trimStart_cons_of_not_blank hc]
      | true =>
          have hrest : group? rest = none := by
            simpa [group?_cons_of_blank hc] using h
          rw [Text.trimStart_cons_of_blank hc, ih hrest, scan_cons_of_blank hc h]

/-! ## The extent of a segment -/

/-- What a segment holds, and what may follow it: it is read up to the next
character that ends it, and a star alone is a segment unless a bracket follows
it. -/
structure IsSegment (text tail : List Char) : Prop where
  ne_nil : text ≠ []
  inside : ∀ c ∈ text, endsSegment c = false
  behind : ∀ c, tail.head? = some c → endsSegment c = true
  star : text = ['*'] → tail.head? ≠ some '['

variable {gap text tail : List Char}

theorem IsSegment.trimStart (h : IsSegment text tail) (hgap : ∀ d ∈ gap, isBlank d = true) :
    trimStart (gap ++ (text ++ tail)) = text ++ tail := by
  obtain ⟨c, text, rfl⟩ := List.exists_cons_of_ne_nil h.ne_nil
  have hc : isBlank c = false := ((endsSegment_eq_false_iff c).mp (h.inside c (by simp))).1
  rw [Text.trimStart_append_of_blank hgap, List.cons_append, Text.trimStart_cons_of_not_blank hc]

theorem IsSegment.group? (h : IsSegment text tail) (hgap : ∀ d ∈ gap, isBlank d = true) :
    group? (gap ++ (text ++ tail)) = none := by
  apply group?_eq_none
  rw [h.trimStart hgap]
  obtain ⟨c, text, rfl⟩ := List.exists_cons_of_ne_nil h.ne_nil
  by_cases hmark : c = '*'
  · subst hmark
    -- Behind the star comes the rest of the segment, or what follows it.
    cases text with
    | nil => simpa [Part.star] using h.star rfl
    | cons d text =>
        have hd : d ≠ '[' := ((endsSegment_eq_false_iff d).mp (h.inside d (by simp))).2.1
        simpa [Part.star] using hd
  · have hc : c ≠ '[' := ((endsSegment_eq_false_iff c).mp (h.inside c (by simp))).2.1
    simpa [star_of_ne hmark] using hc

theorem IsSegment.childRest? (h : IsSegment text tail) (hgap : ∀ d ∈ gap, isBlank d = true) :
    childRest? (gap ++ (text ++ tail)) = none := by
  apply childRest?_eq_none
  rw [h.trimStart hgap]
  obtain ⟨c, text, rfl⟩ := List.exists_cons_of_ne_nil h.ne_nil
  have hc : c ≠ '>' := ((endsSegment_eq_false_iff c).mp (h.inside c (by simp))).2.2
  simpa using hc

/-- The characters of a segment are those up to the first one that ends it. -/
theorem span_segment (hinside : ∀ c ∈ text, endsSegment c = false)
    (hbehind : ∀ c, tail.head? = some c → endsSegment c = true) :
    ((text ++ tail).takeWhile fun d => !endsSegment d) = text ∧
      ((text ++ tail).dropWhile fun d => !endsSegment d) = tail := by
  have hpass : ∀ c ∈ text, (!endsSegment c) = true := by simpa using hinside
  rw [List.takeWhile_append_of_pos hpass, List.dropWhile_append_of_pos hpass]
  cases tail with
  | nil => simp
  | cons c tail => simp [hbehind c rfl]

theorem scan_append_segment (h : IsSegment text tail) (hgap : ∀ d ∈ gap, isBlank d = true) :
    scan (gap ++ (text ++ tail)) = segment (String.ofList text) :: scan tail := by
  have htail : scan (text ++ tail) = segment (String.ofList text) :: scan tail := by
    have hgroup := h.group? (List.forall_mem_nil _)
    have hchild := h.childRest? (List.forall_mem_nil _)
    have hvisible : ∀ d ∈ text, isBlank d = false := fun d hd =>
      ((endsSegment_eq_false_iff d).mp (h.inside d hd)).1
    have hpart := ofSegment_of_visible h.ne_nil hvisible
    obtain ⟨c, text, rfl⟩ := List.exists_cons_of_ne_nil h.ne_nil
    have hinside : ∀ d ∈ text, endsSegment d = false := fun d hd => h.inside d (by simp [hd])
    obtain ⟨htake, hdrop⟩ := span_segment hinside h.behind
    rw [List.nil_append, List.cons_append] at hgroup hchild
    rw [List.cons_append, scan_of_segment hgroup hchild, htake, hdrop, hpart]
    rfl
  rw [← htail, ← scan_trimStart (h.group? hgap), h.trimStart hgap]

end LinkedPath.Part
