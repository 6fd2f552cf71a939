import LinkedPath.Proofs.Query.Extraction
import LinkedPath.Proofs.Text.Collapse
import LinkedPath.Query.Compiled

/-!
# Spacing

Which blanks a selector is written with, and how many in a row, makes no
difference to its parts, apart from the texts of keys and values.  The
productions do not tell blanks apart, so each of them finds in a collapsed text
what it finds in the text (`group?_collapse`, `childRest?_collapse`).  Only a
segment reads a run of blanks one by one, and then the readings of the two texts
get out of step: the first blanks of the run leave no part
(`scan_collapse`).
-/

namespace LinkedPath

open Text (isBlank trim trimStart collapse)

namespace Part

/-! ## The productions -/

theorem ne_stop_of_blank {stop : Char} (hstop : isBlank stop = false) {c : Char}
    (hc : isBlank c = true) : (c != stop) = true := by
  rw [bne_iff_ne]
  rintro rfl
  simp [hstop] at hc

theorem field?_collapse {stop : Char} (hstop : isBlank stop = false) (text : List Char) :
    field? stop (collapse text) =
      (field? stop text).map fun (field, rest) => (collapse field, collapse rest) := by
  have htest : ∀ c, isBlank c = true → (c != stop) = true := fun _ hc => ne_stop_of_blank hstop hc
  have hspace : (' ' != stop) = true := htest ' ' Text.isBlank_space
  have hsame : ∀ c, isBlank c = true → (c != stop) = (' ' != stop) := fun c hc =>
    (htest c hc).trans hspace.symm
  cases text with
  | nil => simp [field?]
  | cons c more =>
      have hdrop : ∀ text : List Char, (collapse text).dropWhile (· != stop) =
          collapse (text.dropWhile (· != stop)) := Text.dropWhile_collapse hsame
      have htake : ∀ text : List Char, (collapse text).takeWhile (· != stop) =
          collapse (text.takeWhile (· != stop)) := Text.takeWhile_collapse hsame
      have hbehind : ∀ d rest, more.dropWhile (· != stop) = d :: rest → isBlank d = false := by
        intro d rest hrest
        have hd : d = stop := by
          simpa [hrest] using List.head?_dropWhile_not (· != stop) more
        rw [hd, hstop]
      cases hc : isBlank c with
      | false =>
          simp only [field?, Text.collapse_cons_of_not_blank hc, hdrop, htake]
          cases hrest : more.dropWhile (· != stop) with
          | nil => simp
          | cons d rest => simp [hbehind d rest hrest, hc]
      | true =>
          -- The blanks behind the first character are in the field as well.
          simp only [field?, Text.collapse_cons_of_blank hc, hdrop, htake,
            Text.dropWhile_trimStart htest, ← Text.trimStart_takeWhile htest]
          cases hrest : more.dropWhile (· != stop) with
          | nil => simp
          | cons d rest => simp [hbehind d rest hrest, hc]

theorem groupBody?_collapse (body : List Char) :
    groupBody? (collapse body) =
      (groupBody? body).map fun (key, value, rest) =>
        (collapse key, collapse value, collapse rest) := by
  unfold groupBody?
  rw [field?_collapse isBlank_equals]
  cases field? '=' body with
  | none => rfl
  | some found =>
      simp only [Option.map_some, field?_collapse isBlank_close]
      cases field? ']' found.2 <;> rfl

/-- The group with its runs of blanks collapsed. -/
def Group.collapsed (group : Group) : Group :=
  { lead := collapse group.lead
    key := collapse group.key
    value := collapse group.value
    rest := collapse group.rest }

/-- The first character of a collapsed text is the one of the text, or both are
blank. -/
theorem collapse_cons_cases (c : Char) (rest : List Char) :
    isBlank c = true ∧ (∃ more, collapse (c :: rest) = ' ' :: more) ∨
      isBlank c = false ∧ collapse (c :: rest) = c :: collapse rest := by
  cases hc : isBlank c with
  | true => exact Or.inl ⟨rfl, _, Text.collapse_cons_of_blank hc⟩
  | false => exact Or.inr ⟨rfl, Text.collapse_cons_of_not_blank hc⟩

theorem star_collapse (text : List Char) :
    star (collapse text) = ((star text).1, collapse (star text).2) := by
  cases text with
  | nil => simp [star]
  | cons c rest =>
      by_cases hmark : c = '*'
      · subst hmark
        simp [star]
      · rw [star_of_ne hmark]
        obtain ⟨-, more, hmore⟩ | ⟨-, hplain⟩ := collapse_cons_cases c rest
        · rw [hmore, star_of_ne (by decide)]
        · rw [hplain, star_of_ne hmark]

/-- Behind the lead of a group stands a bracket, in both texts or in neither. -/
theorem group?_collapse (text : List Char) :
    group? (collapse text) = (group? text).map Group.collapsed := by
  have hblank : ∀ c, isBlank c = true → isBlank c = isBlank ' ' := fun c hc => by simp [hc]
  have hlead : collapse (text.takeWhile isBlank ++ (star (text.dropWhile isBlank)).1) =
      collapse (text.takeWhile isBlank) ++ (star (text.dropWhile isBlank)).1 := by
    obtain hmark | hmark := (star_spec (text.dropWhile isBlank)).1
    · simp [hmark]
    · simp [hmark, Text.collapse_append_cons]
  unfold group?
  simp only [Text.takeWhile_collapse hblank, Text.dropWhile_collapse hblank, star_collapse]
  cases hbehind : (star (text.dropWhile isBlank)).2 with
  | nil => simp
  | cons c body =>
      by_cases hbracket : c = '['
      · subst hbracket
        simp only [Text.collapse_cons_of_not_blank isBlank_open, groupBody?_collapse]
        cases groupBody? body with
        | none => rfl
        | some found => simp [Group.collapsed, hlead]
      · obtain ⟨-, more, hmore⟩ | ⟨-, hplain⟩ := collapse_cons_cases c body
        · simp [hmore, hbracket]
        · simp [hplain, hbracket]

theorem childRest?_collapse (text : List Char) :
    childRest? (collapse text) = (childRest? text).map collapse := by
  unfold childRest?
  rw [Text.trimStart_collapse]
  cases hstart : trimStart text with
  | nil => simp
  | cons c rest =>
      have hc := (Text.exists_of_trimStart_eq_cons hstart).1
      by_cases hcombinator : c = '>'
      · subst hcombinator
        simp [Text.trimStart_collapse]
      · simp [hc, hcombinator]

/-! ## The parts -/

/-- The part with the runs of blanks in its key and its value collapsed. -/
def collapsed : Part → Part
  | predicate key value =>
      predicate (String.ofList (collapse key.toList)) (String.ofList (collapse value.toList))
  | part => part

theorem ofGroup_collapsed (group : Group) :
    ofGroup group.collapsed = (ofGroup group).map collapsed := by
  rw [ofGroup_eq, ofGroup_eq]
  by_cases hlead : group.lead = []
  · simp [Group.collapsed, hlead, collapsed, Text.trim_collapse]
  · simp [Group.collapsed, hlead, collapsed, Text.trim_collapse, Text.collapse_eq_nil_iff]

theorem map_collapsed_ofSegment (text : List Char) :
    (ofSegment text).map collapsed = ofSegment text := by
  rw [ofSegment_eq]
  split <;> rfl

/-- Collapsing changes the first character at most from one blank to another,
unless a second blank follows it. -/
theorem collapse_cons_or (c : Char) (rest : List Char) :
    (∃ d more, rest = d :: more ∧ isBlank c = true ∧ isBlank d = true) ∨
      ∃ first, collapse (c :: rest) = first :: collapse rest ∧
        ∀ run, ofSegment (first :: run) = ofSegment (c :: run) := by
  cases hc : isBlank c with
  | false => exact Or.inr ⟨c, Text.collapse_cons_of_not_blank hc, fun _ => rfl⟩
  | true =>
      by_cases hstart : trimStart rest = rest
      · refine Or.inr ⟨' ', by rw [Text.collapse_cons_of_blank hc, hstart], ?_⟩
        intro run
        rw [ofSegment_cons_of_blank Text.isBlank_space, ofSegment_cons_of_blank hc]
      · cases rest with
        | nil => exact absurd rfl hstart
        | cons d more =>
            cases hd : isBlank d with
            | true => exact Or.inl ⟨d, more, rfl, rfl, hd⟩
            | false => exact absurd (Text.trimStart_cons_of_not_blank hd) hstart

/-- Where a segment is read, the same segment is read from the collapsed text;
but a blank in front of another blank is read there with the run that it is
in. -/
theorem scan_collapse_of_segment {c : Char} {rest : List Char}
    (hgroup : group? (c :: rest) = none) (hchild : childRest? (c :: rest) = none)
    (hrest : scan (collapse (rest.dropWhile fun d => !endsSegment d)) =
      (scan (rest.dropWhile fun d => !endsSegment d)).map collapsed) :
    scan (collapse (c :: rest)) = (scan (c :: rest)).map collapsed := by
  have hgroup' : group? (collapse (c :: rest)) = none := by
    rw [group?_collapse, hgroup, Option.map_none]
  have hchild' : childRest? (collapse (c :: rest)) = none := by
    rw [childRest?_collapse, hchild, Option.map_none]
  obtain ⟨d, more, rfl, hc, hd⟩ | ⟨first, hfirst, hsegment⟩ := collapse_cons_or c rest
  · have hdrop : (d :: more).dropWhile (fun e => !endsSegment e) = d :: more := by
      simp [endsSegment, hd]
    rw [hdrop] at hrest
    rw [Text.collapse_cons_cons hc hd, hrest, scan_cons_of_blank hc hgroup]
  · have hsame : ∀ d, isBlank d = true → (!endsSegment d) = !endsSegment ' ' := fun d hd => by
      simp [endsSegment, hd]
    have hvisible : ∀ d ∈ rest.takeWhile fun d => !endsSegment d, isBlank d = false := by
      intro d hd
      have hends : endsSegment d = false := by simpa using List.mem_takeWhile_imp hd
      exact ((endsSegment_eq_false_iff d).mp hends).1
    rw [scan_of_segment hgroup hchild, List.map_append, map_collapsed_ofSegment]
    rw [hfirst] at hgroup' hchild' ⊢
    rw [scan_of_segment hgroup' hchild', Text.takeWhile_collapse hsame,
      Text.dropWhile_collapse hsame, Text.collapse_eq_self hvisible, hsegment, hrest]

theorem scan_collapse (text : List Char) :
    scan (collapse text) = (scan text).map collapsed := by
  induction text using scan.induct with
  | case1 => simp
  | case2 c rest ih =>
      unfold next at ih
      cases hgroup : group? (c :: rest) with
      | some group =>
          have hcollapsed : group? (collapse (c :: rest)) = some group.collapsed := by
            rw [group?_collapse, hgroup, Option.map_some]
          rw [scan_of_group? hgroup, scan_of_group? hcollapsed, ofGroup_collapsed, List.map_append]
          simp only [hgroup] at ih
          exact congrArg _ ih
      | none =>
          cases hchild : childRest? (c :: rest) with
          | some left =>
              have hgroup' : group? (collapse (c :: rest)) = none := by
                rw [group?_collapse, hgroup, Option.map_none]
              have hchild' : childRest? (collapse (c :: rest)) = some (collapse left) := by
                rw [childRest?_collapse, hchild, Option.map_some]
              rw [scan_of_childRest? hgroup hchild, scan_of_childRest? hgroup' hchild',
                List.map_cons]
              simp only [hgroup, hchild] at ih
              exact congrArg _ ih
          | none =>
              simp only [hgroup, hchild] at ih
              exact scan_collapse_of_segment hgroup hchild ih

/-- Predicates are read from brackets. -/
theorem bracket_mem_of_predicate_mem (text : List Char) :
    ∀ key value, predicate key value ∈ scan text → '[' ∈ text := by
  refine scan_induction (motive := fun text parts =>
    ∀ key value, predicate key value ∈ parts → '[' ∈ text) (by simp) ?_ text
  intro text parts left hextraction hleft key value hmem
  obtain hparts | hmore := List.mem_append.mp hmem
  · obtain ⟨group, hfits⟩ := hextraction.exists_predicate_iff.mp ⟨key, value, hparts⟩
    rw [hfits.whole, Group.whole]
    simp
  · exact hextraction.isSuffix.mem (hleft key value hmore)

/-- Without brackets there is no text that collapsing could change. -/
theorem map_collapsed_scan {text : List Char} (h : '[' ∉ text) :
    (scan text).map collapsed = scan text := by
  have hsame : ∀ part ∈ scan text, collapsed part = id part := by
    intro part hpart
    cases part with
    | predicate key value => exact absurd (bracket_mem_of_predicate_mem text key value hpart) h
    | anchor | child | segment => rfl
  rw [List.map_congr_left hsame, List.map_id]

theorem scan_trim_collapse (text : List Char) :
    scan (trim (collapse text)) = (scan (trim text)).map collapsed := by
  rw [Text.trim_collapse, scan_collapse]

/-- Writing every run of blanks as one space changes the texts of keys and
values only.  So selectors without brackets that agree but for their spacing
have the same steps in every context. -/
theorem split_collapse :
    (∀ query : String, split (String.ofList (collapse query.toList)) =
      (split query).map collapsed) ∧
    ∀ first second : String, '[' ∉ first.toList → '[' ∉ second.toList →
      trim (collapse first.toList) = trim (collapse second.toList) →
      ∀ context : Context, (Compiled.compile context.expander first).steps =
        (Compiled.compile context.expander second).steps := by
  constructor
  · intro query
    rw [split, String.toList_ofList, scan_trim_collapse, split]
  · intro first second hfirst hsecond hcollapse context
    have hplain : ∀ query : String, '[' ∉ query.toList →
        split query = scan (trim (collapse query.toList)) := by
      intro query hquery
      have htrim : '[' ∉ trim query.toList := mt Text.mem_of_mem_trim hquery
      rw [split, scan_trim_collapse, map_collapsed_scan htrim]
    have hparts : split first = split second := by
      rw [hplain first hfirst, hplain second hsecond, hcollapse]
    show (Compiled.ofParts context.expander first (split first)).steps =
      (Compiled.ofParts context.expander second (split second)).steps
    rw [hparts]
    rfl

/-- Tabs, line ends and spaces that do not break a line are spacing like any
other. -/
theorem split_collapse_tabs :
    let first := "\ta \n >\u00a0b"
    let second := "a >  b "
    ('[' ∉ first.toList ∧ '[' ∉ second.toList ∧
      trim (collapse first.toList) = trim (collapse second.toList)) ∧
      (Compiled.compile Context.empty.expander first).steps =
        (Compiled.compile Context.empty.expander second).steps := by
  intro first second
  have hfirst : '[' ∉ first.toList := by decide
  have hsecond : '[' ∉ second.toList := by decide
  have hcollapse : trim (collapse first.toList) = trim (collapse second.toList) := by
    simp +decide [first, second, collapse, trim, trimStart, Text.trimEnd]
  exact ⟨⟨hfirst, hsecond, hcollapse⟩,
    split_collapse.2 first second hfirst hsecond hcollapse Context.empty⟩

end Part

end LinkedPath
