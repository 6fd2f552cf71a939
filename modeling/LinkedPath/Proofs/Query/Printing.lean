import LinkedPath.Proofs.Query.Productions

/-!
# Printed selectors

Parts are written one behind the other: a segment behind a blank, a combinator
between two, a predicate as a bracket group directly behind the part before it,
and a node without a name as a star behind a blank.  Reading the text gives the
parts back, because every part begins with a character that ends the segment
before it, and only a predicate begins with a bracket.
-/

namespace LinkedPath.Part

open Text (isBlank trim trimStart trimEnd)

/-- The characters of a part. -/
def written : Part → List Char
  | anchor => [' ', '*']
  | predicate key value => '[' :: (key.toList ++ '=' :: (value.toList ++ [']']))
  | child => [' ', '>', ' ']
  | segment text => ' ' :: text.toList

/-- The text of parts. -/
def print (parts : List Part) : String :=
  String.ofList (parts.flatMap written)

/-- The text of a field that ends with a stop character: it has no blank ends,
and no stop behind its first character. -/
structure PlainField (stop : Char) (text : String) : Prop where
  ne_empty : text ≠ ""
  trimmed : trim text.toList = text.toList
  inside : stop ∉ text.toList.tail

/-- The texts of a part can be told apart from what stands around them. -/
def Plain : Part → Prop
  | segment text => text ≠ "" ∧ ∀ c ∈ text.toList, isBlank c = false ∧ c ≠ '[' ∧ c ≠ '>'
  | predicate key value => PlainField '=' key ∧ PlainField ']' value
  | _ => True

/-- Parts that can be read back from their text.  A node without a name stands
before a predicate, and no star does that is a segment. -/
structure Printable (parts : List Part) : Prop where
  plain : ∀ part ∈ parts, part.Plain
  anchor : ∀ before after, parts = before ++ anchor :: after →
    ∃ key value rest, after = predicate key value :: rest
  star : ∀ before key value after,
    parts ≠ before ++ segment "*" :: predicate key value :: after

variable {part : Part} {parts : List Part}

theorem printable_nil : Printable [] where
  plain := by simp
  anchor before after heq := by simp at heq
  star before key value after heq := by simp at heq

/-- Printable parts, one part after the other. -/
theorem printable_cons_iff : Printable (part :: parts) ↔
    part.Plain ∧ (part = anchor → ∃ key value rest, parts = predicate key value :: rest) ∧
      (part = segment "*" → ∀ key value rest, parts ≠ predicate key value :: rest) ∧
      Printable parts := by
  constructor
  · intro h
    refine ⟨h.plain part List.mem_cons_self, ?_, ?_, ?_⟩
    · intro hanchor
      subst hanchor
      exact h.anchor [] parts rfl
    · intro hstar key value rest heq
      subst hstar heq
      exact h.star [] key value rest rfl
    · refine ⟨fun other hother => h.plain other (List.mem_cons_of_mem part hother), ?_, ?_⟩
      · intro before after heq
        exact h.anchor (part :: before) after (by rw [heq]; rfl)
      · intro before key value after heq
        exact h.star (part :: before) key value after (by rw [heq]; rfl)
  · intro h
    obtain ⟨hplain, hanchor, hstar, hrest⟩ := h
    refine ⟨List.forall_mem_cons.mpr ⟨hplain, hrest.plain⟩, ?_, ?_⟩
    · intro before after heq
      cases before with
      | nil =>
          obtain ⟨rfl, rfl⟩ := List.cons.inj heq
          exact hanchor rfl
      | cons first before => exact hrest.anchor before after (List.cons.inj heq).2
    · intro before key value after heq
      cases before with
      | nil =>
          obtain ⟨rfl, rfl⟩ := List.cons.inj heq
          exact hstar rfl key value after rfl
      | cons first before => exact hrest.star before key value after (List.cons.inj heq).2

theorem Printable.tail (h : Printable (part :: parts)) : Printable parts :=
  (printable_cons_iff.mp h).2.2.2

theorem PlainField.isField {stop : Char} {text : String} (h : PlainField stop text) :
    IsField stop text.toList :=
  ⟨mt String.toList_eq_nil_iff.mp h.ne_empty, h.inside⟩

theorem ofGroup_of_plain {key value : String} (hkey : PlainField '=' key)
    (hvalue : PlainField ']' value) (lead rest : List Char) :
    ofGroup { lead, key := key.toList, value := value.toList, rest } =
      (if lead.isEmpty then [] else [anchor]) ++ [predicate key value] := by
  cases lead <;> simp [ofGroup, hkey.trimmed, hvalue.trimmed]

/-- A written predicate is read whatever follows it; blanks or a star in front
of it stand for a node without a name. -/
theorem scan_predicate {gap mark : List Char} {key value : String} (rest : List Char)
    (hgap : ∀ d ∈ gap, isBlank d = true) (hmark : mark = [] ∨ mark = ['*'])
    (hplain : (predicate key value).Plain) :
    scan (gap ++ (mark ++ ((predicate key value).written ++ rest))) =
      (if (gap ++ mark).isEmpty then [] else [anchor]) ++ predicate key value :: scan rest := by
  obtain ⟨hkey, hvalue⟩ := hplain
  have hgroup := group?_bracket rest hgap hmark hkey.isField hvalue.isField
  have hscan := scan_of_group? hgroup
  rw [ofGroup_of_plain hkey hvalue, List.append_assoc] at hscan
  simpa [written] using hscan

/-- What is written begins with a character that ends a segment. -/
theorem endsSegment_head_written {c : Char} (h : (parts.flatMap written).head? = some c) :
    endsSegment c = true := by
  cases parts with
  | nil => simp at h
  | cons part rest =>
      cases part <;> simp [written] at h <;> subst h <;> decide

/-- Only a predicate begins with a bracket. -/
theorem exists_predicate_of_head_written (h : (parts.flatMap written).head? = some '[') :
    ∃ key value rest, parts = predicate key value :: rest := by
  cases parts with
  | nil => simp at h
  | cons part rest =>
      cases part with
      | predicate key value => exact ⟨key, value, rest, rfl⟩
      | anchor | child | segment => simp [written] at h

theorem head?_of_isPrefix {c : Char} {front text : List Char} (h : front <+: text)
    (hhead : front.head? = some c) : text.head? = some c := by
  obtain ⟨rest, rfl⟩ := h
  simp [List.head?_append, hhead]

/-- The segment of printable parts ends where its text does. -/
theorem Printable.isSegment {text : String} (h : Printable (segment text :: parts)) :
    IsSegment text.toList (trimEnd (parts.flatMap written)) := by
  obtain ⟨hne, hinside⟩ := h.plain _ List.mem_cons_self
  have hprefix := Text.trimEnd_isPrefix (parts.flatMap written)
  refine ⟨mt String.toList_eq_nil_iff.mp hne, ?_, ?_, ?_⟩
  · intro c hc
    exact (endsSegment_eq_false_iff c).mpr (hinside c hc)
  · intro c hc
    exact endsSegment_head_written (head?_of_isPrefix hprefix hc)
  · intro hstar hbracket
    obtain ⟨key, value, rest, rfl⟩ :=
      exists_predicate_of_head_written (head?_of_isPrefix hprefix hbracket)
    have htext : text = "*" := String.toList_inj.mp hstar
    subst htext
    exact h.star [] key value rest rfl

/-- The last character of a segment is not blank, so it stays when the end of a
text is trimmed. -/
theorem IsSegment.trimEnd_append {text tail : List Char} (h : IsSegment text tail)
    (front rest : List Char) :
    trimEnd (front ++ (text ++ rest)) = front ++ (text ++ trimEnd rest) := by
  have hlast : isBlank (text.getLast h.ne_nil) = false :=
    ((endsSegment_eq_false_iff _).mp (h.inside _ (List.getLast_mem h.ne_nil))).1
  have hsplit : ∀ more, front ++ (text ++ more) =
      (front ++ text.dropLast) ++ text.getLast h.ne_nil :: more := by
    intro more
    conv_lhs => rw [← List.dropLast_append_getLast h.ne_nil]
    simp
  rw [hsplit, Text.trimEnd_append_cons _ hlast, ← hsplit]

theorem trimEnd_written_predicate (key value : String) (front rest : List Char) :
    trimEnd (front ++ ((predicate key value).written ++ rest)) =
      front ++ ((predicate key value).written ++ trimEnd rest) := by
  have hsplit : ∀ more, front ++ ((predicate key value).written ++ more) =
      (front ++ '[' :: (key.toList ++ '=' :: value.toList)) ++ ']' :: more := by
    intro more
    simp [written]
  rw [hsplit, Text.trimEnd_append_cons _ isBlank_close, ← hsplit]

/-- Printable parts are read back from what is written, with or without the
blank in front of the first one. -/
theorem scan_written : ∀ {parts : List Part}, Printable parts →
    scan (trimEnd (parts.flatMap written)) = parts ∧
      scan (trim (parts.flatMap written)) = parts
  | [], _ => by simp
  | segment text :: rest, h => by
      have hrest := (scan_written h.tail).1
      have hsegment := h.isSegment
      have hend : trimEnd ((segment text :: rest).flatMap written) =
          [' '] ++ (text.toList ++ trimEnd (rest.flatMap written)) :=
        hsegment.trimEnd_append [' '] _
      rw [← Text.trimStart_trimEnd, hend, hsegment.trimStart (by simp)]
      have hread : ∀ gap : List Char, (∀ d ∈ gap, isBlank d = true) →
          scan (gap ++ (text.toList ++ trimEnd (rest.flatMap written))) =
            segment text :: rest := by
        intro gap hgap
        rw [scan_append_segment hsegment hgap, String.ofList_toList, hrest]
      exact ⟨hread [' '] (by simp), hread [] (by simp)⟩
  | child :: rest, h => by
      have hrest := (scan_written h.tail).2
      have hend : trimEnd ((child :: rest).flatMap written) =
          [' '] ++ '>' :: trimEnd (' ' :: rest.flatMap written) :=
        Text.trimEnd_append_cons [' '] isBlank_combinator
      -- The blank behind the combinator goes with the combinator.
      have hbehind : trimStart (trimEnd (' ' :: rest.flatMap written)) =
          trim (rest.flatMap written) := by
        rw [Text.trimStart_trimEnd, trim, Text.trimStart_cons_of_blank (by simp)]
        rfl
      have hread : ∀ gap : List Char, (∀ d ∈ gap, isBlank d = true) →
          scan (gap ++ '>' :: trimEnd (' ' :: rest.flatMap written)) = child :: rest := by
        intro gap hgap
        rw [scan_combinator _ hgap, hbehind, hrest]
      rw [← Text.trimStart_trimEnd, hend]
      exact ⟨hread [' '] (by simp), by simpa using hread [] (by simp)⟩
  | predicate key value :: rest, h => by
      have hrest := (scan_written h.tail).1
      have hplain := h.plain _ List.mem_cons_self
      have hend : trimEnd ((predicate key value :: rest).flatMap written) =
          (predicate key value).written ++ trimEnd (rest.flatMap written) :=
        trimEnd_written_predicate key value [] _
      have hread : scan ((predicate key value).written ++ trimEnd (rest.flatMap written)) =
          predicate key value :: rest := by
        have hscan := scan_predicate (trimEnd (rest.flatMap written)) (List.forall_mem_nil _)
          (Or.inl rfl) hplain
        simpa [hrest] using hscan
      rw [← Text.trimStart_trimEnd, hend]
      refine ⟨hread, ?_⟩
      rw [written, List.cons_append, Text.trimStart_cons_of_not_blank isBlank_open]
      exact hread
  | anchor :: rest, h => by
      -- Only together with its predicate is the star read as a node.
      obtain ⟨key, value, after, rfl⟩ := h.anchor [] rest rfl
      have hrest := (scan_written h.tail.tail).1
      have hplain := h.tail.plain _ List.mem_cons_self
      have hend : trimEnd ((anchor :: predicate key value :: after).flatMap written) =
          [' '] ++ '*' :: ((predicate key value).written ++ trimEnd (after.flatMap written)) :=
        trimEnd_written_predicate key value [' ', '*'] _
      have hread : ∀ gap : List Char, (∀ d ∈ gap, isBlank d = true) →
          scan (gap ++ '*' :: ((predicate key value).written ++ trimEnd (after.flatMap written))) =
            anchor :: predicate key value :: after := by
        intro gap hgap
        have hscan := scan_predicate (trimEnd (after.flatMap written)) hgap (Or.inr rfl) hplain
        simpa [hrest] using hscan
      rw [← Text.trimStart_trimEnd, hend]
      exact ⟨hread [' '] (by simp), by simpa using hread [] (by simp)⟩
termination_by parts => parts.length

/-- Splitting undoes printing. -/
theorem split_print {parts : List Part} (h : Printable parts) : split (print parts) = parts := by
  rw [split, print, String.toList_ofList]
  exact (scan_written h).2

/-- Keys and values may hold brackets, combinators, blanks and the stops of
their fields. -/
theorem split_print_brackets :
    let parts : List Part :=
      [segment "a", anchor, predicate "=k ]>" "][v = w", child, predicate "x" "]", segment "*",
        child]
    Printable parts ∧ print parts = " a *[=k ]>=][v = w] > [x=]] * > " ∧
      split (print parts) = parts := by
  intro parts
  have hfirst : PlainField '=' "=k ]>" := ⟨by decide, by decide, by decide⟩
  have hsecond : PlainField ']' "][v = w" := ⟨by decide, by decide, by decide⟩
  have hthird : PlainField '=' "x" := ⟨by decide, by decide, by decide⟩
  have hfourth : PlainField ']' "]" := ⟨by decide, by decide, by decide⟩
  have hprintable : Printable parts := by
    simp [parts, printable_cons_iff, printable_nil, Plain, hfirst, hsecond, hthird, hfourth,
      show isBlank 'a' = false by decide, show isBlank '*' = false by decide]
  exact ⟨hprintable, by decide, split_print hprintable⟩

end LinkedPath.Part
