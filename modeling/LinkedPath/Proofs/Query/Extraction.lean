import LinkedPath.Proofs.Query.Groups
import LinkedPath.Proofs.Text.Pattern

/-!
# What is taken from the start of a text

Three patterns say what the parts of a selector look like: a bracket group, a
combinator and a segment.  They are tried in this order, and the reading that
counts is found by trying again with longer or shorter runs.  The reader does
without: it looks for the first character that can end each field and never
goes back.  The main lemmas say that it finds what the patterns find
(`first?_groupPattern`, `first?_childPattern`, `first?_segmentPattern`), and
`Extraction` says in terms of the text alone what that is.
-/

namespace LinkedPath.Part

open Text (isBlank trim trimStart Pattern)

/-! ## The patterns -/

/-- A key and a value with the stops behind them, and all that follows. -/
def bodyPattern : Pattern :=
  .both .field (.both (.literal '=') (.both .field (.both (.literal ']') .remainder)))

/-- Blanks and perhaps a star, then a bracket group. -/
def groupPattern : Pattern :=
  .both (.capture (.both (.many isBlank true) (.either (.literal '*') .nothing)))
    (.both (.literal '[') bodyPattern)

/-- A combinator with the blanks around it. -/
def childPattern : Pattern :=
  .both (.many isBlank true) (.both (.literal '>') (.both (.many isBlank true) .remainder))

/-- A character that ends a segment, and all that follows. -/
def behindSegment : Pattern :=
  .capture (.either (.since isBlank) (.either (.since (· == '[')) (.since (· == '>'))))

/-- A segment that something follows. -/
def segmentPattern : Pattern := .both .field behindSegment

/-- The parts at the start of a text as the patterns find them, and what follows
them. -/
def extract (text : List Char) : List Part × List Char :=
  match groupPattern.first? text with
  | some [lead, key, value, rest] => (ofGroup { lead, key, value, rest }, rest)
  | _ =>
      match childPattern.first? text with
      | some [rest] => ([child], rest)
      | _ =>
          match segmentPattern.first? text with
          | some [run, rest] => (ofSegment run, rest)
          | _ => (ofSegment text, [])

/-! ## What the patterns find -/

theorem first?_literal_cons (next : Pattern) (stop d : Char) (rest : List Char) :
    (Pattern.both (.literal stop) next).first? (d :: rest) =
      if d = stop then next.first? rest else none := by
  simp [Pattern.literal, Pattern.first?_one_cons]

theorem first?_literal_of_head {next : Pattern} {stop : Char} {text : List Char}
    (h : text.head? ≠ some stop) : (Pattern.both (.literal stop) next).first? text = none := by
  cases text with
  | nil => rfl
  | cons d rest =>
      rw [first?_literal_cons, if_neg]
      rintro rfl
      exact h rfl

/-- A field is read up to the first stop behind its first character, if what
follows can be read behind this stop whenever it can be read behind a later
one. -/
theorem first?_field (stop : Char) (next : Pattern)
    (hnext : ∀ gap rest, next.first? (gap ++ stop :: rest) = none → next.first? rest = none)
    (text : List Char) :
    (Pattern.both .field (.both (.literal stop) next)).first? text =
      (field? stop text).bind fun (field, rest) => (next.first? rest).map (field :: ·) := by
  cases text with
  | nil => rfl
  | cons c more =>
      -- The attempt at the first stop is the one that `field?` makes.
      have hattempt : ((Pattern.both (.literal stop) next).first?
          (more.dropWhile (· != stop))).map ((c :: more.takeWhile (· != stop)) :: ·) =
            (field? stop (c :: more)).bind fun (field, rest) =>
              (next.first? rest).map (field :: ·) := by
        cases hdrop : more.dropWhile (· != stop) with
        | nil =>
            simp only [field?, hdrop]
            rfl
        | cons d rest =>
            have hd : d = stop := by
              simpa [hdrop] using List.head?_dropWhile_not (· != stop) more
            simp [field?, hdrop, first?_literal_cons, hd]
      have hstop : (fun d => !(d == stop)) = (· != stop) := rfl
      rw [Pattern.first?_field_cons, Text.findSome?_runs (· == stop), hstop]
      · exact hattempt
      · intro run left hleft
        have hhead : left.head? ≠ some stop := fun hhead => by simpa using hleft stop hhead
        simp [first?_literal_of_head hhead]
      · rw [hstop]
        intro hnone run left heq
        simp only [hattempt] at hnone
        by_cases hhead : left.head? = some stop
        · obtain ⟨rest, rfl⟩ := List.head?_eq_some_iff.mp hhead
          obtain ⟨field, behind, hread, hcases⟩ :=
            exists_field?_append stop (List.cons_ne_nil c run) rest
          rw [heq, ← List.cons_append, hread] at hnone
          have hbehind : next.first? behind = none := by simpa using hnone
          have hrest : next.first? rest = none := by
            obtain ⟨-, rfl⟩ | ⟨gap, -, rfl⟩ := hcases
            · exact hbehind
            · exact hnext gap rest hbehind
          simp [first?_literal_cons, hrest]
        · simp [first?_literal_of_head hhead]

/-- The value of a group and what follows it. -/
theorem first?_value (text : List Char) :
    (Pattern.both .field (.both (.literal ']') .remainder)).first? text =
      (field? ']' text).map fun (value, rest) => [value, rest] := by
  rw [first?_field]
  · cases field? ']' text <;> simp [Pattern.first?_remainder]
  · intro gap rest hnone
    simp [Pattern.first?_remainder] at hnone

/-- The first equals sign that can end the key is the only one to try: what
stands between it and a later one can as well be in the value. -/
theorem first?_bodyPattern (body : List Char) :
    bodyPattern.first? body =
      (groupBody? body).map fun (key, value, rest) => [key, value, rest] := by
  rw [bodyPattern, first?_field]
  · unfold groupBody?
    cases hkey : field? '=' body with
    | none => rfl
    | some found => simp [first?_value, Function.comp_def]
  · intro gap rest hnone
    rw [first?_value, Option.map_eq_none_iff] at hnone ⊢
    cases hvalue : field? ']' rest with
    | none => rfl
    | some found =>
        -- A value behind the later sign is the end of one behind the earlier.
        obtain ⟨value, behind⟩ := found
        obtain ⟨-, rfl⟩ := field?_eq_some_iff.mp hvalue
        have hlonger : gap ++ '=' :: value ≠ [] := by simp
        obtain ⟨_, _, hread, -⟩ := exists_field?_append ']' hlonger behind
        rw [List.append_assoc, List.cons_append, hnone] at hread
        contradiction

theorem first?_literal_of_blank {next : Pattern} {stop c : Char} (rest : List Char)
    (hstop : isBlank stop = false) (hc : isBlank c = true) :
    (Pattern.both (.literal stop) next).first? (c :: rest) = none := by
  rw [first?_literal_cons, if_neg]
  rintro rfl
  simp [hstop] at hc

/-- The star in front of a bracket is taken: as long as it stands there, there
is no bracket to go on with. -/
theorem findSome?_star (run left : List Char) :
    ((Pattern.either (.literal '*') .nothing).readings left).findSome? (fun r =>
        ((Pattern.both (.literal '[') bodyPattern).first? r.rest).map
          (((run ++ r.taken) :: r.captures) ++ ·)) =
      ((Pattern.both (.literal '[') bodyPattern).first? (star left).2).map
        ((run ++ (star left).1) :: ·) := by
  unfold star
  split
  · rename_i rest
    have hreadings : (Pattern.either (.literal '*') .nothing).readings ('*' :: rest) =
        [{ taken := ['*'], captures := [], rest },
          { taken := [], captures := [], rest := '*' :: rest }] := rfl
    have hbracket : (Pattern.both (.literal '[') bodyPattern).first? ('*' :: rest) = none :=
      first?_literal_of_head (by simp)
    rw [hreadings, List.findSome?_cons, List.findSome?_singleton, hbracket]
    cases (Pattern.both (.literal '[') bodyPattern).first? rest <;> rfl
  · rename_i hstar
    have hreadings : (Pattern.either (.literal '*') .nothing).readings left =
        [{ taken := [], captures := [], rest := left }] := by
      cases left with
      | nil => rfl
      | cons d rest =>
          have hd : d ≠ '*' := fun hd => hstar rest (by rw [hd])
          simp [Pattern.readings, Pattern.literal, hd]
    rw [hreadings, List.findSome?_singleton]
    rfl

/-- The lead of a group takes all blanks, because neither a star nor a bracket
is blank. -/
theorem first?_groupPattern (text : List Char) :
    groupPattern.first? text =
      (group? text).map fun group => [group.lead, group.key, group.value, group.rest] := by
  rw [groupPattern, Pattern.first?_both, Pattern.findSome?_capture, Pattern.findSome?_both,
    Pattern.findSome?_many, if_pos rfl]
  show (Text.runs isBlank text).reverse.findSome? (fun (run, left) =>
    ((Pattern.either (.literal '*') .nothing).readings left).findSome? fun r =>
      ((Pattern.both (.literal '[') bodyPattern).first? r.rest).map
        (((run ++ r.taken) :: r.captures) ++ ·)) = _
  simp only [findSome?_star]
  rw [Text.findSome?_runs_reverse]
  · unfold group?
    cases hbehind : (star (text.dropWhile isBlank)).2 with
    | nil =>
        simp only [hbehind]
        rfl
    | cons d body =>
        by_cases hd : d = '['
        · subst hd
          simp [hbehind, first?_literal_cons, first?_bodyPattern, Function.comp_def]
        · simp [hbehind, first?_literal_cons, hd]
  · intro run c rest hc
    have hmark : c ≠ '*' := by
      rintro rfl
      simp at hc
    simp [star_of_ne hmark, first?_literal_of_blank rest isBlank_open hc]

theorem first?_childPattern (text : List Char) :
    childPattern.first? text = (childRest? text).map fun rest => [rest] := by
  have hbehind : ∀ rest, (Pattern.both (.many isBlank true) .remainder).first? rest =
      some [trimStart rest] := by
    intro rest
    rw [Pattern.first?_many, if_pos rfl]
    exact Text.findSome?_runs_reverse_of_eq_some (Pattern.first?_remainder _)
  rw [childPattern, Pattern.first?_many, if_pos rfl, Text.findSome?_runs_reverse]
  · show (Pattern.both (.literal '>') _).first? (trimStart text) = _
    unfold childRest?
    cases hstart : trimStart text with
    | nil => rfl
    | cons c rest =>
        rw [first?_literal_cons, hbehind]
        by_cases hc : c = '>'
        · subst hc
          simp
        · rw [if_neg hc]
          split
          · rename_i heq
            exact absurd (List.cons.inj heq).1 hc
          · rfl
  · intro run c rest hc
    exact first?_literal_of_blank rest isBlank_combinator hc

theorem first?_behindSegment (text : List Char) :
    behindSegment.first? text = if text.head?.any endsSegment then some [text] else none := by
  have hhead : ((Pattern.either (.since isBlank)
      (.either (.since (· == '[')) (.since (· == '>')))).readings text).head? =
        if text.head?.any endsSegment then
          some { taken := text, captures := [], rest := [] } else none := by
    simp only [Pattern.readings, List.head?_append, Pattern.head?_readings_since]
    cases text with
    | nil => rfl
    | cons c rest =>
        simp only [List.head?_cons, Option.any_some, endsSegment]
        by_cases hblank : isBlank c = true
        · simp [hblank]
        · by_cases hbracket : (c == '[') = true
          · simp [hblank, hbracket]
          · simp [hblank, hbracket]
  rw [Pattern.first?, behindSegment, Pattern.readings, List.head?_map, hhead]
  split <;> rfl

theorem first?_behindSegment_cons {c : Char} (h : endsSegment c = true) (rest : List Char) :
    behindSegment.first? (c :: rest) = some [c :: rest] := by
  simp [first?_behindSegment, h]

theorem first?_behindSegment_eq_none {text : List Char}
    (h : ∀ c, text.head? = some c → endsSegment c = false) :
    behindSegment.first? text = none := by
  cases text with
  | nil => rfl
  | cons c rest => simp [first?_behindSegment, h c rfl]

theorem endsSegment_of_dropWhile {text behind : List Char} {d : Char}
    (h : (text.dropWhile fun c => !endsSegment c) = d :: behind) : endsSegment d = true := by
  simpa [h] using List.head?_dropWhile_not (fun c => !endsSegment c) text

/-- A segment that something follows ends at the first character that ends it. -/
theorem first?_segmentPattern (c : Char) (rest : List Char) :
    segmentPattern.first? (c :: rest) =
      (behindSegment.first? (rest.dropWhile fun d => !endsSegment d)).map
        ((c :: rest.takeWhile fun d => !endsSegment d) :: ·) := by
  rw [segmentPattern, Pattern.first?_field_cons, Text.findSome?_runs endsSegment]
  · intro run left hleft
    simp [first?_behindSegment_eq_none hleft]
  · intro hnone run left heq
    simp only [Option.map_eq_none_iff] at hnone ⊢
    cases hdrop : rest.dropWhile fun d => !endsSegment d with
    | cons d behind =>
        rw [hdrop, first?_behindSegment_cons (endsSegment_of_dropWhile hdrop)] at hnone
        contradiction
    | nil =>
        -- Nothing in the text ends a segment.
        apply first?_behindSegment_eq_none
        intro d hd
        have hmem : d ∈ rest := by
          rw [heq]
          exact List.mem_append_right run (List.mem_of_head? hd)
        simpa using List.dropWhile_eq_nil_iff.mp hdrop d hmem

/-! ## The reader finds what the patterns find -/

theorem next_eq_extract (c : Char) (rest : List Char) : next c rest = extract (c :: rest) := by
  unfold next extract
  rw [first?_groupPattern, first?_childPattern, first?_segmentPattern]
  cases group? (c :: rest) with
  | some group => rfl
  | none =>
      cases childRest? (c :: rest) with
      | some left => rfl
      | none =>
          cases hdrop : rest.dropWhile fun d => !endsSegment d with
          | nil =>
              have hall := List.takeWhile_eq_self_iff.mpr (List.dropWhile_eq_nil_iff.mp hdrop)
              simp [hall, first?_behindSegment]
          | cons d behind =>
              simp [first?_behindSegment_cons (endsSegment_of_dropWhile hdrop)]

/-! ## What there is to take -/

/-- What there is to take from the start of a text: the parts, and what follows
them. -/
inductive Extraction (text : List Char) : List Part → List Char → Prop
  /-- A bracket group; a lead is a node without a name. -/
  | group (group : Group) (chosen : group.Chosen text) :
      Extraction text
        ((if group.lead = [] then [] else [anchor]) ++
          [predicate (String.ofList (trim group.key)) (String.ofList (trim group.value))])
        group.rest
  /-- Where no group fits, a combinator with all blanks around it. -/
  | child (gap behind rest : List Char) (noGroup : ∀ group : Group, ¬ group.Fits text)
      (blankGap : ∀ c ∈ gap, isBlank c = true) (blankBehind : ∀ c ∈ behind, isBlank c = true)
      (stop : ∀ c, rest.head? = some c → isBlank c = false)
      (whole : text = gap ++ '>' :: (behind ++ rest)) :
      Extraction text [child] rest
  /-- Where there is no combinator either, the first character and all that
  follow it up to the next one that ends a segment; blanks leave no part. -/
  | segment (c : Char) (more rest : List Char) (noGroup : ∀ group : Group, ¬ group.Fits text)
      (noChild : (trimStart text).head? ≠ some '>')
      (inside : ∀ d ∈ more, endsSegment d = false)
      (stop : ∀ d, rest.head? = some d → endsSegment d = true)
      (whole : text = c :: (more ++ rest)) :
      Extraction text
        (if (c :: more).all isBlank then []
          else [segment (String.ofList (trim (c :: more)))])
        rest

theorem ofGroup_eq (group : Group) :
    ofGroup group = (if group.lead = [] then [] else [anchor]) ++
      [predicate (String.ofList (trim group.key)) (String.ofList (trim group.value))] := by
  unfold ofGroup
  cases group.lead <;> rfl

theorem extraction_next (c : Char) (rest : List Char) :
    Extraction (c :: rest) (next c rest).1 (next c rest).2 := by
  unfold next
  cases hgroup : group? (c :: rest) with
  | some group =>
      simp only [ofGroup_eq]
      exact .group group (group?_eq_some_iff_chosen.mp hgroup)
  | none =>
      have hnone := group?_eq_none_iff.mp hgroup
      cases hchild : childRest? (c :: rest) with
      | some left =>
          obtain ⟨gap, behind, hgap, hbehind, hstop, hwhole⟩ := childRest?_eq_some_iff.mp hchild
          exact .child gap behind left hnone hgap hbehind hstop hwhole
      | none =>
          simp only [ofSegment_eq]
          refine .segment c _ _ hnone ?_ ?_ ?_ ?_
          · intro hhead
            obtain ⟨behind, hstart⟩ := List.head?_eq_some_iff.mp hhead
            simp [childRest?, hstart] at hchild
          · intro d hd
            simpa using List.mem_takeWhile_imp hd
          · intro d hd
            obtain ⟨behind, hdrop⟩ := List.head?_eq_some_iff.mp hd
            exact endsSegment_of_dropWhile hdrop
          · rw [List.takeWhile_append_dropWhile]

/-- What holds of an empty text, and of all parts as soon as it holds of those
behind what is taken first, holds of every text. -/
theorem scan_induction {motive : List Char → List Part → Prop} (empty : motive [] [])
    (step : ∀ {text parts left}, Extraction text parts left → motive left (scan left) →
      motive text (parts ++ scan left))
    (text : List Char) : motive text (scan text) := by
  induction text using scan.induct with
  | case1 => simpa using empty
  | case2 c rest ih =>
      rw [scan_cons]
      exact step (extraction_next c rest) ih

/-- There is only one thing to take. -/
theorem Extraction.next_eq {c : Char} {rest left : List Char} {parts : List Part}
    (h : Extraction (c :: rest) parts left) : next c rest = (parts, left) := by
  unfold next
  cases h with
  | group group chosen => simp only [group?_eq_some_iff_chosen.mpr chosen, ofGroup_eq]
  | child gap behind _ noGroup blankGap blankBehind stop whole =>
      have hchild : childRest? (c :: rest) = some left :=
        childRest?_eq_some_iff.mpr ⟨gap, behind, blankGap, blankBehind, stop, whole⟩
      simp only [group?_eq_none_iff.mpr noGroup, hchild]
  | segment _ more _ noGroup noChild inside stop whole =>
      obtain ⟨rfl, rfl⟩ := List.cons.inj whole
      obtain ⟨htake, hdrop⟩ := span_segment inside stop
      simp only [group?_eq_none_iff.mpr noGroup, childRest?_eq_none noChild, htake, hdrop,
        ofSegment_eq]

theorem Extraction.exists_predicate_iff {text left : List Char} {parts : List Part}
    (h : Extraction text parts left) :
    (∃ key value, predicate key value ∈ parts) ↔ ∃ group : Group, group.Fits text := by
  cases h with
  | group group chosen =>
      exact iff_of_true ⟨_, _, List.mem_append_right _ List.mem_cons_self⟩ ⟨group, chosen.fits⟩
  | child _ _ _ noGroup =>
      exact iff_of_false (by simp) (not_exists.mpr noGroup)
  | segment c more _ noGroup =>
      refine iff_of_false ?_ (not_exists.mpr noGroup)
      split <;> simp

theorem Extraction.child_mem_iff {text left : List Char} {parts : List Part}
    (h : Extraction text parts left) :
    Part.child ∈ parts ↔
      (∀ group : Group, ¬ group.Fits text) ∧ (trimStart text).head? = some '>' := by
  cases h with
  | group group chosen =>
      refine iff_of_false ?_ (fun hnone => hnone.1 group chosen.fits)
      split <;> simp
  | child gap behind _ noGroup blankGap _ _ whole =>
      have hhead : (trimStart text).head? = some '>' := by
        rw [whole, Text.trimStart_append_of_blank blankGap,
          Text.trimStart_cons_of_not_blank isBlank_combinator]
        rfl
      exact iff_of_true List.mem_cons_self ⟨noGroup, hhead⟩
  | segment c more _ noGroup noChild =>
      refine iff_of_false ?_ (fun hnone => noChild hnone.2)
      split <;> simp

theorem Extraction.isSuffix {text left : List Char} {parts : List Part}
    (h : Extraction text parts left) : left <:+ text := by
  cases h with
  | group group chosen =>
      refine ⟨group.lead ++ '[' :: (group.key ++ '=' :: (group.value ++ [']'])), ?_⟩
      rw [chosen.fits.whole, Group.whole]
      simp
  | child gap behind _ _ _ _ _ whole => exact ⟨gap ++ '>' :: behind, by simp [whole]⟩
  | segment c more _ _ _ _ _ whole => exact ⟨c :: more, by simp [whole]⟩

/-- The reader takes what the patterns find, and that is what the text alone
determines: a bracket group whenever one fits, and then the shortest one, whose
fields end at the first stops that can end them; else a combinator whenever one
comes first behind the blanks; else a segment. -/
theorem next_takes (c : Char) (rest : List Char) :
    next c rest = extract (c :: rest) ∧
      (∀ parts left, next c rest = (parts, left) ↔ Extraction (c :: rest) parts left) ∧
      ((∃ key value, predicate key value ∈ (next c rest).1) ↔
        ∃ group : Group, group.Fits (c :: rest)) ∧
      (child ∈ (next c rest).1 ↔
        (∀ group : Group, ¬ group.Fits (c :: rest)) ∧
          (trimStart (c :: rest)).head? = some '>') ∧
      ∀ group : Group, group.Chosen (c :: rest) ↔
        group.Fits (c :: rest) ∧ '=' ∉ group.key.tail ∧ ']' ∉ group.value.tail := by
  refine ⟨next_eq_extract c rest, ?_, ?_, ?_, ?_⟩
  · intro parts left
    constructor
    · intro h
      simpa [h] using extraction_next c rest
    · exact Extraction.next_eq
  · exact (extraction_next c rest).exists_predicate_iff
  · exact (extraction_next c rest).child_mem_iff
  · intro group
    rw [← group?_eq_some_iff_chosen, group?_eq_some_iff]

/-- An equals sign and a bracket that come first belong to their fields. -/
example : next ' ' "*[==]]=]b".toList = ([anchor, predicate "=" "]"], "=]b".toList) := by decide

end LinkedPath.Part
