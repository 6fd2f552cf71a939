import Mathlib.Data.List.Forall2
import LinkedPath.Proofs.Query.Extraction

/-!
# Nothing is lost

Reading goes round by round until nothing is left, and every round takes
something, so there are no more rounds than characters (`exists_rounds`).  What
a round takes can be written back: apart from blanks, and from the choice
whether a node without a name was a star, the parts hold every character that
was read, in order (`Extraction.exists_writes`); and what one round keeps, all
parts keep (`scan_induction`).
-/

namespace LinkedPath.Part

open Text (isBlank trim trimStart visible)

/-! ## Rounds -/

/-- There are at most as many rounds as characters. -/
theorem exists_rounds (parts : List Part) (text : List Char) :
    ∃ n ≤ text.length, round^[n] (parts, text) = (parts ++ scan text, []) := by
  induction text using scan.induct generalizing parts with
  | case1 => exact ⟨0, le_rfl, by simp⟩
  | case2 c rest ih =>
      obtain ⟨n, hn, hrounds⟩ := ih (parts ++ (next c rest).1)
      have hshorter := next_shorter c rest
      refine ⟨n + 1, by omega, ?_⟩
      rw [Function.iterate_succ_apply, round, hrounds, scan_cons, List.append_assoc]

/-! ## Writing parts back -/

/-- What a part was read from, but for blanks. -/
inductive WritesAs : Part → List Char → Prop
  | anchor : WritesAs anchor []
  | star : WritesAs anchor ['*']
  | predicate (key value : String) :
      WritesAs (predicate key value) ('[' :: (key.toList ++ '=' :: (value.toList ++ [']'])))
  | child : WritesAs child ['>']
  | segment (text : String) : WritesAs (segment text) text.toList

/-- The parts that are taken write what is taken. -/
theorem Extraction.exists_writes {text left : List Char} {parts : List Part}
    (h : Extraction text parts left) :
    ∃ texts, List.Forall₂ WritesAs parts texts ∧
      visible (texts.flatten ++ left) = visible text := by
  cases h with
  | group group chosen =>
      obtain ⟨⟨gap, mark, hgap, hmark, hlead⟩, -, -, rfl⟩ := chosen.fits
      have htest := WritesAs.predicate (String.ofList (trim group.key))
        (String.ofList (trim group.value))
      have hvisible : visible group.whole = mark ++ '[' :: (visible group.key ++
          '=' :: (visible group.value ++ ']' :: visible group.rest)) := by
        have hmarkVisible : visible mark = mark := by
          obtain rfl | rfl := hmark <;> rfl
        simp [Group.whole, hlead, Text.visible_eq_nil_iff.mpr hgap, hmarkVisible]
      by_cases hempty : group.lead = []
      · obtain ⟨rfl, rfl⟩ : gap = [] ∧ mark = [] := by simpa [hempty] using hlead
        rw [if_pos hempty]
        exact ⟨_, .cons htest .nil, by simp [hvisible]⟩
      · have hnode : WritesAs anchor mark := by
          obtain rfl | rfl := hmark
          · exact .anchor
          · exact .star
        rw [if_neg hempty]
        refine ⟨_, .cons hnode (.cons htest .nil), ?_⟩
        obtain rfl | rfl := hmark <;> simp [hvisible]
  | child gap behind _ _ blankGap blankBehind _ whole =>
      refine ⟨[['>']], .cons .child .nil, ?_⟩
      subst whole
      simp [Text.visible_eq_nil_iff.mpr blankGap, Text.visible_eq_nil_iff.mpr blankBehind]
  | segment c more _ _ _ _ _ whole =>
      rw [whole, ← List.cons_append, Text.visible_append]
      split
      · rename_i hblank
        exact ⟨[], .nil, by simp [Text.visible_eq_nil_iff.mpr (List.all_eq_true.mp hblank)]⟩
      · have hsegment := WritesAs.segment (String.ofList (trim (c :: more)))
        exact ⟨_, .cons hsegment .nil, by simp⟩

/-- All parts of a text write the text. -/
theorem exists_writes_scan (text : List Char) :
    ∃ texts, List.Forall₂ WritesAs (scan text) texts ∧ visible texts.flatten = visible text := by
  refine scan_induction (motive := fun text parts => ∃ texts, List.Forall₂ WritesAs parts texts ∧
    visible texts.flatten = visible text) ⟨[], .nil, rfl⟩ ?_ text
  intro text parts left hextraction hleft
  obtain ⟨texts, hwrites, hvisible⟩ := hextraction.exists_writes
  obtain ⟨more, hmore, hrest⟩ := hleft
  refine ⟨texts ++ more, List.rel_append hwrites hmore, ?_⟩
  rw [← hvisible, List.flatten_append, Text.visible_append, hrest, Text.visible_append]

/-! ## The texts of parts -/

/-- The texts of a part are trimmed, and those of a segment hold none of the
signs that end it, except that a bracket may come first. -/
def Tidy : Part → Prop
  | segment text =>
      text ≠ "" ∧ (∀ c ∈ text.toList, isBlank c = false ∧ c ≠ '>') ∧ '[' ∉ text.toList.tail
  | predicate key value => trim key.toList = key.toList ∧ trim value.toList = value.toList
  | _ => True

theorem tidy_segment {text : List Char} (hne : text ≠ [])
    (hplain : ∀ c ∈ text, isBlank c = false ∧ c ≠ '>') (hbracket : '[' ∉ text.tail) :
    (segment (String.ofList text)).Tidy := by
  refine ⟨?_, by simpa using hplain, by simpa using hbracket⟩
  intro hempty
  exact hne (by simpa using congrArg String.toList hempty)

theorem Extraction.tidy {text left : List Char} {parts : List Part}
    (h : Extraction text parts left) : ∀ part ∈ parts, part.Tidy := by
  cases h with
  | group group chosen =>
      have htest : (predicate (String.ofList (trim group.key))
          (String.ofList (trim group.value))).Tidy := by
        simp [Tidy, Text.trim_trim]
      split
      · simpa using htest
      · simpa [show anchor.Tidy from trivial] using htest
  | child => exact List.forall_mem_singleton.mpr trivial
  | segment c more _ _ noChild inside _ whole =>
      have hmore : ∀ d ∈ more, isBlank d = false ∧ d ≠ '[' ∧ d ≠ '>' := fun d hd =>
        (endsSegment_eq_false_iff d).mp (inside d hd)
      have hplain : ∀ d ∈ more, isBlank d = false ∧ d ≠ '>' := fun d hd =>
        ⟨(hmore d hd).1, (hmore d hd).2.2⟩
      have hbracket : '[' ∉ more := fun hmem => (hmore '[' hmem).2.1 rfl
      split
      · exact List.forall_mem_nil _
      · rename_i hvisible
        rw [List.forall_mem_singleton]
        cases hc : isBlank c with
        | true =>
            -- The blank goes, and the rest is as long as it is not blank.
            have htrim : trim (c :: more) = more := by
              rw [Text.trim_cons_of_blank hc, Text.trim_eq_self fun d hd => (hmore d hd).1]
            have hne : more ≠ [] := by
              rintro rfl
              exact hvisible (by simpa using hc)
            rw [htrim]
            exact tidy_segment hne hplain (mt List.mem_of_mem_tail hbracket)
        | false =>
            have htrim : trim (c :: more) = c :: more :=
              Text.trim_eq_self (List.forall_mem_cons.mpr ⟨hc, fun d hd => (hmore d hd).1⟩)
            have hcombinator : c ≠ '>' := by
              rintro rfl
              exact noChild (by rw [whole, Text.trimStart_cons_of_not_blank hc]; rfl)
            rw [htrim]
            exact tidy_segment (List.cons_ne_nil c more)
              (List.forall_mem_cons.mpr ⟨⟨hc, hcombinator⟩, hplain⟩) hbracket

/-- Every node without a name stands in front of a predicate. -/
def AnchorsLead (parts : List Part) : Prop :=
  ∀ before after, parts = before ++ anchor :: after →
    ∃ key value rest, after = predicate key value :: rest

theorem AnchorsLead.append {first second : List Part} (hfirst : AnchorsLead first)
    (hsecond : AnchorsLead second) : AnchorsLead (first ++ second) := by
  intro before after heq
  obtain ⟨inner, rfl, hrest⟩ | ⟨rest, rfl, hrest⟩ := List.append_eq_append_iff.mp heq
  · exact hsecond inner after hrest
  · cases rest with
    | nil => exact hsecond [] after (by simpa using hrest.symm)
    | cons part rest =>
        obtain ⟨rfl, rfl⟩ := List.cons.inj hrest
        obtain ⟨key, value, more, rfl⟩ := hfirst before rest rfl
        exact ⟨key, value, more ++ second, rfl⟩

theorem anchorsLead_of_not_mem {parts : List Part} (h : anchor ∉ parts) : AnchorsLead parts := by
  rintro before after rfl
  exact absurd (List.mem_append_right before List.mem_cons_self) h

theorem anchorsLead_node (key value : String) : AnchorsLead [anchor, predicate key value] := by
  intro before after heq
  cases before with
  | nil => exact ⟨key, value, [], (List.cons.inj heq).2.symm⟩
  | cons part before =>
      have htail : [predicate key value] = before ++ anchor :: after := (List.cons.inj heq).2
      have hmem : anchor ∈ [predicate key value] := by simp [htail]
      simp at hmem

theorem Extraction.anchorsLead {text left : List Char} {parts : List Part}
    (h : Extraction text parts left) : AnchorsLead parts := by
  cases h with
  | group group chosen =>
      split
      · exact anchorsLead_of_not_mem (by simp)
      · exact anchorsLead_node _ _
  | child => exact anchorsLead_of_not_mem (by simp)
  | segment =>
      apply anchorsLead_of_not_mem
      split <;> simp

/-- Splitting ends and keeps all but blanks.  The rounds are done after at most
as many as there are characters.  The parts write back what is not blank in the
query, they are tidy, and nodes without a name stand in front of predicates. -/
theorem split_keeps (query : String) :
    (∃ n ≤ query.toList.length, round^[n] ([], trim query.toList) = (split query, [])) ∧
      (∃ texts, List.Forall₂ WritesAs (split query) texts ∧
        visible texts.flatten = visible query.toList) ∧
      (∀ part ∈ split query, part.Tidy) ∧
      AnchorsLead (split query) := by
  refine ⟨?_, ?_, ?_, ?_⟩
  · obtain ⟨n, hn, hrounds⟩ := exists_rounds [] (trim query.toList)
    exact ⟨n, hn.trans (Text.trim_length_le _), hrounds⟩
  · obtain ⟨texts, hwrites, hvisible⟩ := exists_writes_scan (trim query.toList)
    exact ⟨texts, hwrites, hvisible.trans (Text.visible_trim _)⟩
  · refine scan_induction (motive := fun _ parts => ∀ part ∈ parts, part.Tidy)
      (List.forall_mem_nil _) ?_ _
    intro text parts left hextraction hleft
    exact List.forall_mem_append.mpr ⟨hextraction.tidy, hleft⟩
  · refine scan_induction (motive := fun _ parts => AnchorsLead parts)
      (anchorsLead_of_not_mem (by simp)) ?_ _
    intro text parts left hextraction hleft
    exact hextraction.anchorsLead.append hleft

/-- A star, brackets that close nothing, and one that is not closed. -/
theorem split_keeps_brackets :
    let query := " *[ k = v] ]>[x"
    let rest := [predicate "k" "v", segment "]", child, segment "[x"]
    split query = anchor :: rest ∧
      (segment "[x" ∈ split query ∧ (segment "[x").Tidy) ∧
      (split query = [] ++ anchor :: rest ∧
        ∃ key value more, rest = predicate key value :: more) := by
  intro query rest
  have hrounds : round^[4] ([], trim query.toList) = (anchor :: rest, []) := by decide
  have hsplit : split query = anchor :: rest := split_eq_of_rounds hrounds
  have hmem : segment "[x" ∈ split query := by simp [hsplit, rest]
  obtain ⟨-, -, htidy, hanchors⟩ := split_keeps query
  exact ⟨hsplit, ⟨hmem, htidy _ hmem⟩, hsplit, hanchors [] rest hsplit⟩

end LinkedPath.Part
