import LinkedPath.Proofs.Query.Assembly
import LinkedPath.Proofs.Query.Groups

/-!
# A combinator at the end

Behind any text a combinator is read as one more part, however that text ends:
it closes no bracket group (`group?_append`), it ends an open segment, and the
blanks in front of it are its own, also where the text alone would have taken
them.  So `scan_append_combinator` follows the reader through the text with
whatever blanks are left, and `split_trailing` trims the two ends first.  The
steps get the combinator in front.
-/

namespace LinkedPath

namespace Text

variable {c : Char} {front rest text tail : List Char}

/-- A character that the end of a text lacks stands in what comes before. -/
theorem exists_of_append_cons_eq (h : front ++ c :: rest = text ++ tail) (hc : c ∉ tail) :
    ∃ more, text = front ++ c :: more ∧ rest = more ++ tail := by
  obtain ⟨gap, rfl, hrest⟩ | ⟨gap, -, rfl⟩ := List.append_eq_append_iff.mp h
  · cases gap with
    | nil => exact absurd (by rw [← List.nil_append tail, ← hrest]; exact List.mem_cons_self) hc
    | cons d more =>
        obtain ⟨rfl, rfl⟩ := List.cons.inj hrest
        exact ⟨more, rfl, rfl⟩
  · exact absurd (by simp) hc

end Text

namespace Part

open Text (isBlank trim trimStart trimEnd)

/-- Blanks and a combinator behind them. -/
def IsCombinator (text : List Char) : Prop :=
  ∃ gap, (∀ c ∈ gap, isBlank c = true) ∧ text = gap ++ ['>']

variable {gap text tail : List Char}

namespace IsCombinator

theorem append (h : IsCombinator tail) (hgap : ∀ c ∈ gap, isBlank c = true) :
    IsCombinator (gap ++ tail) := by
  obtain ⟨more, hmore, rfl⟩ := h
  refine ⟨gap ++ more, ?_, (List.append_assoc _ _ _).symm⟩
  simpa [or_imp, forall_and] using ⟨hgap, hmore⟩

theorem scan (h : IsCombinator tail) : Part.scan tail = [child] := by
  obtain ⟨gap, hgap, rfl⟩ := h
  rw [scan_combinator [] hgap, Text.trimStart_nil, scan_nil]

theorem close_not_mem (h : IsCombinator tail) : ']' ∉ tail := by
  obtain ⟨gap, hgap, rfl⟩ := h
  intro hmem
  obtain hmem | hmem := List.mem_append.mp hmem
  · exact absurd (hgap _ hmem) (by decide)
  · exact absurd (List.mem_singleton.mp hmem) (by decide)

/-- A segment goes no further. -/
theorem endsSegment_head (h : IsCombinator tail) {c : Char} (hc : tail.head? = some c) :
    endsSegment c = true := by
  obtain ⟨gap, hgap, rfl⟩ := h
  cases gap with
  | nil =>
      obtain rfl : '>' = c := by simpa using hc
      rfl
  | cons d more =>
      obtain rfl : d = c := by simpa using hc
      simp [endsSegment, hgap d List.mem_cons_self]

theorem span_append (h : IsCombinator tail) (text : List Char) :
    ((text ++ tail).takeWhile fun d => !endsSegment d) =
        (text.takeWhile fun d => !endsSegment d) ∧
      ((text ++ tail).dropWhile fun d => !endsSegment d) =
        (text.dropWhile fun d => !endsSegment d) ++ tail := by
  have hinside : ∀ d ∈ text.takeWhile fun d => !endsSegment d, endsSegment d = false := by
    intro d hd
    simpa using List.mem_takeWhile_imp hd
  have hbehind : ∀ d, ((text.dropWhile fun d => !endsSegment d) ++ tail).head? = some d →
      endsSegment d = true := by
    intro d hd
    have hhead := List.head?_dropWhile_not (fun d => !endsSegment d) text
    cases hdrop : text.dropWhile fun d => !endsSegment d with
    | nil =>
        rw [hdrop] at hd
        exact h.endsSegment_head hd
    | cons e behind =>
        rw [hdrop] at hd hhead
        obtain rfl : e = d := by simpa using hd
        simpa using hhead
  have hspan := span_segment hinside hbehind
  rwa [← List.append_assoc, List.takeWhile_append_dropWhile] at hspan

/-- Trimming the start of a text takes the blanks of the combinator when it
takes all of the text. -/
theorem trimStart_append (h : IsCombinator tail) (text : List Char) :
    trimStart (text ++ tail) = if trimStart text = [] then ['>'] else trimStart text ++ tail := by
  obtain ⟨gap, hgap, rfl⟩ := h
  obtain ⟨lead, hlead, happend⟩ := Text.exists_append_trimStart text
  split
  · rename_i hnil
    have hblank := Text.trimStart_eq_nil_iff.mp hnil
    rw [Text.trimStart_append_of_blank hblank, Text.trimStart_append_of_blank hgap]
    rfl
  · rename_i hne
    obtain ⟨c, rest, hstart⟩ := List.exists_cons_of_ne_nil hne
    have hc := (Text.exists_of_trimStart_eq_cons hstart).1
    rw [happend, List.append_assoc, Text.trimStart_append_of_blank hlead, ← happend, hstart]
    exact Text.trimStart_cons_of_not_blank hc

theorem exists_trimStart_append (h : IsCombinator tail) (text : List Char) :
    ∃ tail', IsCombinator tail' ∧ trimStart (text ++ tail) = trimStart text ++ tail' := by
  rw [h.trimStart_append]
  split
  · rename_i hnil
    exact ⟨['>'], ⟨[], List.forall_mem_nil _, rfl⟩, by rw [hnil]; rfl⟩
  · exact ⟨tail, h, rfl⟩

theorem trimEnd_append (h : IsCombinator tail) (text : List Char) :
    trimEnd (text ++ tail) = text ++ tail := by
  obtain ⟨gap, -, rfl⟩ := h
  rw [← List.append_assoc, Text.trimEnd_append_cons _ isBlank_combinator]
  rfl

/-- What trimming takes off the end of a text comes to the combinator. -/
theorem exists_trim_append (h : IsCombinator tail) (text : List Char) :
    ∃ tail', IsCombinator tail' ∧ trim (text ++ tail) = trim text ++ tail' := by
  obtain ⟨tail', htail, hstart⟩ := h.exists_trimStart_append text
  obtain ⟨gap, hgap, happend⟩ := Text.exists_append_trimEnd (trimStart text)
  refine ⟨gap ++ tail', htail.append hgap, ?_⟩
  rw [trim, hstart, htail.trimEnd_append, trim, ← List.append_assoc, ← happend]

end IsCombinator

/-! ## Reading a text with a combinator behind it -/

/-- A bracket group ends with its bracket, so what cannot close a group makes no
group of a text that is none. -/
theorem group?_append (h : ']' ∉ tail) (text : List Char) :
    group? (text ++ tail) =
      (group? text).map fun group => { group with rest := group.rest ++ tail } := by
  cases hgroup : group? text with
  | some group =>
      obtain ⟨hfits, hkey, hvalue⟩ := group?_eq_some_iff.mp hgroup
      refine group?_eq_some_iff.mpr ⟨⟨hfits.lead, hfits.key, hfits.value, ?_⟩, hkey, hvalue⟩
      rw [hfits.whole]
      simp [Group.whole]
  | none =>
      refine group?_eq_none_iff.mpr ?_
      intro group hfits
      have hwhole : (group.lead ++ '[' :: (group.key ++ '=' :: group.value)) ++ ']' :: group.rest =
          text ++ tail := by
        rw [hfits.whole]
        simp [Group.whole]
      obtain ⟨more, htext, -⟩ := Text.exists_of_append_cons_eq hwhole h
      have hfits' : { group with rest := more : Group }.Fits text := by
        refine ⟨hfits.lead, hfits.key, hfits.value, ?_⟩
        rw [htext]
        simp [Group.whole]
      exact group?_eq_none_iff.mp hgroup _ hfits'

theorem childRest?_append_of_some (h : IsCombinator tail) {rest : List Char}
    (hchild : childRest? text = some rest) :
    ∃ tail', IsCombinator tail' ∧ childRest? (text ++ tail) = some (rest ++ tail') := by
  obtain ⟨gap, behind, hgap, hbehind, hhead, rfl⟩ := childRest?_eq_some_iff.mp hchild
  obtain ⟨tail', htail, hstart⟩ := h.exists_trimStart_append (behind ++ rest)
  refine ⟨tail', htail, ?_⟩
  rw [List.append_assoc, List.cons_append, childRest?_combinator _ hgap, hstart,
    Text.trimStart_append_of_blank hbehind, Text.trimStart_eq_self hhead]

theorem childRest?_append_of_none (h : IsCombinator tail) (hstart : trimStart text ≠ [])
    (hchild : childRest? text = none) : childRest? (text ++ tail) = none := by
  refine childRest?_eq_none ?_
  rw [h.trimStart_append, if_neg hstart]
  intro hhead
  obtain ⟨c, rest, hcons⟩ := List.exists_cons_of_ne_nil hstart
  obtain rfl : c = '>' := by simpa [hcons] using hhead
  simp [childRest?, hcons] at hchild

/-- Behind any text a combinator is a part of its own. -/
theorem scan_append_combinator (h : IsCombinator tail) :
    scan (text ++ tail) = scan text ++ [child] := by
  induction text using scan.induct generalizing tail with
  | case1 => rw [List.nil_append, h.scan, scan_nil, List.nil_append]
  | case2 c rest ih =>
      unfold next at ih
      have hread := group?_append h.close_not_mem (c :: rest)
      cases hgroup : group? (c :: rest) with
      | some group =>
          simp only [hgroup] at ih
          rw [hgroup] at hread
          rw [scan_of_group? hread, scan_of_group? hgroup, ih h, List.append_assoc]
          rfl
      | none =>
          rw [hgroup] at hread
          cases hchild : childRest? (c :: rest) with
          | some left =>
              simp only [hgroup, hchild] at ih
              obtain ⟨tail', htail, hleft⟩ := childRest?_append_of_some h hchild
              rw [scan_of_childRest? hread hleft, scan_of_childRest? hgroup hchild, ih htail]
              rfl
          | none =>
              simp only [hgroup, hchild] at ih
              by_cases hstart : trimStart (c :: rest) = []
              · -- The combinator takes a blank text as a whole.
                rw [← scan_trimStart hgroup, hstart, scan_nil]
                exact (h.append (Text.trimStart_eq_nil_iff.mp hstart)).scan
              · have hnone := childRest?_append_of_none h hstart hchild
                obtain ⟨htake, hdrop⟩ := h.span_append rest
                rw [List.cons_append] at hread hnone ⊢
                rw [scan_of_segment hread hnone, scan_of_segment hgroup hchild, htake, hdrop, ih h,
                  List.append_assoc]

/-- A combinator behind a selector is one more part. -/
theorem split_trailing (source : String) : split (source ++ " >") = split source ++ [child] := by
  have hcombinator : IsCombinator [' ', '>'] := ⟨[' '], by simp, rfl⟩
  obtain ⟨tail, htail, htrim⟩ := hcombinator.exists_trim_append source.toList
  rw [split, String.toList_append, show " >".toList = [' ', '>'] from rfl, htrim,
    scan_append_combinator htail]
  rfl

end Part

namespace Compiled

theorem steps_compile_trailing (expander : Expander) (source : String) :
    (compile expander (source ++ " >")).steps = .child :: (compile expander source).steps := by
  have hdraft := assemble_concat_child expander (Part.split source)
  rw [← Part.split_trailing] at hdraft
  rw [steps, steps, compile, compile, ofParts, ofParts, hdraft]
  rfl

end Compiled

end LinkedPath
