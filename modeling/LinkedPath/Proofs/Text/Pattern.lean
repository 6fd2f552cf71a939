import Mathlib.Data.List.DropRight

/-!
# Patterns with preferences

A pattern can often read the beginning of a text in several ways, and these are
ordered.  A greedy run prefers to take as many characters as it can and a lazy
one as few, the first of two alternatives is preferred to the second, and what
stands further left in a pattern decides first.  The first reading counts
(`Pattern.first?`), so a run that was taken too long or too short is taken
anew as long as the patterns behind it fail.

The lemmas say when no such second try is needed: a greedy run takes all that
it can if the pattern behind it takes none of its characters
(`findSome?_runs_reverse`), and a lazy run ends at the first stop if later stops
do not help where this one fails (`findSome?_runs`).
-/

namespace LinkedPath.Text

/-- A pattern for the beginning of a text. -/
inductive Pattern
  | nothing
  /-- One character of a class. -/
  | one (test : Char → Bool)
  /-- Characters of a class, as many as possible or as few. -/
  | many (test : Char → Bool) (greedy : Bool)
  /-- One pattern behind the other. -/
  | both (first second : Pattern)
  /-- One of two patterns. -/
  | either (preferred other : Pattern)
  /-- What the pattern takes is handed out. -/
  | capture (inner : Pattern)

/-- A way to read the beginning of a text: the characters that are taken, the
captures among them in the order in which they begin, and what follows. -/
structure Reading where
  taken : List Char
  captures : List (List Char)
  rest : List Char

/-- Two readings in a row. -/
def Reading.followedBy (first second : Reading) : Reading :=
  { taken := first.taken ++ second.taken
    captures := first.captures ++ second.captures
    rest := second.rest }

/-- The beginnings of a text with characters of a class only, shortest first,
and what follows each. -/
def runs (test : Char → Bool) : List Char → List (List Char × List Char)
  | [] => [([], [])]
  | c :: rest =>
      ([], c :: rest) ::
        if test c then (runs test rest).map fun (run, left) => (c :: run, left) else []

namespace Pattern

/-- The readings of a pattern, the preferred ones first. -/
def readings : Pattern → List Char → List Reading
  | nothing, text => [{ taken := [], captures := [], rest := text }]
  | one _, [] => []
  | one test, c :: rest => if test c then [{ taken := [c], captures := [], rest }] else []
  | many test greedy, text =>
      (if greedy then (runs test text).reverse else runs test text).map fun (run, left) =>
        { taken := run, captures := [], rest := left }
  | both first second, text =>
      (first.readings text).flatMap fun reading =>
        (second.readings reading.rest).map reading.followedBy
  | either preferred other, text => preferred.readings text ++ other.readings text
  | capture inner, text =>
      (inner.readings text).map fun reading =>
        { reading with captures := reading.taken :: reading.captures }

/-- The captures of the reading that counts. -/
def first? (pattern : Pattern) (text : List Char) : Option (List (List Char)) :=
  (pattern.readings text).head?.map Reading.captures

/-- Any character. -/
def any : Char → Bool := fun _ => true

/-- A given character. -/
def literal (c : Char) : Pattern := one (· == c)

/-- At least one character, as few as possible. -/
def field : Pattern := capture (both (one any) (many any false))

/-- All that is left, if possible. -/
def remainder : Pattern := capture (many any true)

/-- A character of a class, and all that follows it, if possible. -/
def since (test : Char → Bool) : Pattern := both (one test) (many any true)

end Pattern

variable {β : Type} {test : Char → Bool}

/-! ## Runs -/

theorem of_mem_runs {text run left : List Char} (h : (run, left) ∈ runs test text) :
    text = run ++ left ∧ ∀ c ∈ run, test c = true := by
  induction text generalizing run with
  | nil =>
      obtain ⟨rfl, rfl⟩ : run = [] ∧ left = [] := by simpa [runs] using h
      exact ⟨rfl, List.forall_mem_nil _⟩
  | cons c rest ih =>
      rw [runs, List.mem_cons] at h
      obtain heq | hmem := h
      · obtain ⟨rfl, rfl⟩ := Prod.mk.inj heq
        exact ⟨rfl, List.forall_mem_nil _⟩
      · split at hmem
        · rename_i hc
          obtain ⟨⟨run', left'⟩, hmem', heq⟩ := List.mem_map.mp hmem
          obtain ⟨rfl, rfl⟩ := Prod.mk.inj heq
          obtain ⟨happend, hall⟩ := ih hmem'
          exact ⟨congrArg (c :: ·) happend, List.forall_mem_cons.mpr ⟨hc, hall⟩⟩
        · contradiction

/-- The longest run comes last. -/
theorem exists_runs_eq (test : Char → Bool) (text : List Char) :
    ∃ shorter, runs test text =
      shorter ++ [(text.takeWhile test, text.dropWhile test)] := by
  induction text with
  | nil => exact ⟨[], rfl⟩
  | cons c rest ih =>
      obtain ⟨shorter, hruns⟩ := ih
      by_cases hc : test c = true
      · refine ⟨([], c :: rest) :: shorter.map fun (run, left) => (c :: run, left), ?_⟩
        simp [runs, hc, hruns]
      · exact ⟨[], by simp [runs, hc]⟩

/-- A greedy run takes all that it can where this is no failure. -/
theorem findSome?_runs_reverse_of_eq_some {text : List Char} {found : β}
    {attempt : List Char × List Char → Option β}
    (h : attempt (text.takeWhile test, text.dropWhile test) = some found) :
    (runs test text).reverse.findSome? attempt = some found := by
  obtain ⟨shorter, hruns⟩ := exists_runs_eq test text
  simp [hruns, h]

/-- A greedy run takes all that it can if the pattern behind it cannot begin
with a character of the run. -/
theorem findSome?_runs_reverse {text : List Char} {attempt : List Char × List Char → Option β}
    (hmiss : ∀ run c rest, test c = true → attempt (run, c :: rest) = none) :
    (runs test text).reverse.findSome? attempt =
      attempt (text.takeWhile test, text.dropWhile test) := by
  cases hlongest : attempt (text.takeWhile test, text.dropWhile test) with
  | some found => exact findSome?_runs_reverse_of_eq_some hlongest
  | none =>
      rw [List.findSome?_eq_none_iff]
      rintro ⟨run, left⟩ hmem
      obtain ⟨rfl, hall⟩ := of_mem_runs (List.mem_reverse.mp hmem)
      cases left with
      | nil => simpa [List.takeWhile_eq_self_iff.mpr hall, List.dropWhile_eq_nil_iff.mpr hall]
          using hlongest
      | cons c rest =>
          cases hc : test c with
          | true => exact hmiss run c rest hc
          | false => simpa [List.takeWhile_append_of_pos hall, List.dropWhile_append_of_pos hall,
              hc] using hlongest

/-- A lazy run of any characters ends at the first stop: it fails wherever no
stop follows, and nothing longer helps where this fails. -/
theorem findSome?_runs (stop : Char → Bool) {text : List Char}
    {attempt : List Char × List Char → Option β}
    (hmiss : ∀ run left, (∀ c, left.head? = some c → stop c = false) → attempt (run, left) = none)
    (hlonger : attempt (text.takeWhile fun c => !stop c, text.dropWhile fun c => !stop c) = none →
      ∀ run left, text = run ++ left → attempt (run, left) = none) :
    (runs Pattern.any text).findSome? attempt =
      attempt (text.takeWhile fun c => !stop c, text.dropWhile fun c => !stop c) := by
  induction text generalizing attempt with
  | nil => simp [runs]
  | cons c rest ih =>
      have hruns : (runs Pattern.any (c :: rest)).findSome? attempt =
          (attempt ([], c :: rest)).or
            ((runs Pattern.any rest).findSome? fun (run, left) => attempt (c :: run, left)) := by
        simp only [runs, Pattern.any, if_true, List.findSome?_cons, List.findSome?_map]
        cases attempt ([], c :: rest) <;> rfl
      rw [hruns]
      cases hc : stop c with
      | true =>
          simp only [List.takeWhile_cons, List.dropWhile_cons, hc, Bool.not_true,
            Bool.false_eq_true, if_false] at hlonger ⊢
          cases hfirst : attempt ([], c :: rest) with
          | some found => rfl
          | none =>
              rw [Option.none_or, List.findSome?_eq_none_iff]
              rintro ⟨run, left⟩ hmem
              exact hlonger hfirst (c :: run) left
                (congrArg (c :: ·) (of_mem_runs hmem).1)
      | false =>
          -- The run goes on behind `c`, with `c` in front of all that it takes.
          have hskip : attempt ([], c :: rest) = none := by
            apply hmiss
            intro d hd
            obtain rfl : c = d := by simpa using hd
            exact hc
          simp only [List.takeWhile_cons, List.dropWhile_cons, hc, Bool.not_false,
            if_true] at hlonger ⊢
          rw [hskip, Option.none_or]
          refine @ih (fun way => attempt (c :: way.1, way.2)) ?_ ?_
          · intro run left hleft
            exact hmiss (c :: run) left hleft
          · intro hnone run left heq
            exact hlonger hnone (c :: run) left (congrArg (c :: ·) heq)

/-! ## The reading that counts -/

namespace Pattern

theorem first?_eq_findSome? (pattern : Pattern) (text : List Char) :
    pattern.first? text = (pattern.readings text).findSome? fun r => some r.captures := by
  rw [first?]
  cases pattern.readings text <;> rfl

/-- All readings of the second pattern are tried behind one reading of the first
before its next one is. -/
theorem findSome?_both (first second : Pattern) (text : List Char)
    (attempt : Reading → Option β) :
    ((both first second).readings text).findSome? attempt =
      (first.readings text).findSome? fun r =>
        (second.readings r.rest).findSome? fun s => attempt (r.followedBy s) := by
  rw [readings]
  induction first.readings text with
  | nil => rfl
  | cons r others ih =>
      rw [List.flatMap_cons, List.findSome?_append, ih, List.findSome?_map, List.findSome?_cons]
      simp only [Function.comp_def]
      cases (second.readings r.rest).findSome? fun s => attempt (r.followedBy s) <;> rfl

theorem findSome?_many (greedy : Bool) (text : List Char) (attempt : Reading → Option β) :
    ((many test greedy).readings text).findSome? attempt =
      (if greedy then (runs test text).reverse else runs test text).findSome?
        fun (run, left) => attempt { taken := run, captures := [], rest := left } := by
  rw [readings, List.findSome?_map]
  rfl

theorem findSome?_capture (inner : Pattern) (text : List Char) (attempt : Reading → Option β) :
    ((capture inner).readings text).findSome? attempt =
      (inner.readings text).findSome? fun r =>
        attempt { r with captures := r.taken :: r.captures } := by
  rw [readings, List.findSome?_map]
  rfl

/-- The first reading of the one pattern behind which the other has a reading. -/
theorem first?_both (first second : Pattern) (text : List Char) :
    (both first second).first? text =
      (first.readings text).findSome? fun r => (second.first? r.rest).map (r.captures ++ ·) := by
  have hsecond : ∀ r : Reading, (second.first? r.rest).map (r.captures ++ ·) =
      (second.readings r.rest).findSome? fun s => some (r.followedBy s).captures := by
    intro r
    rw [first?]
    cases second.readings r.rest <;> rfl
  rw [first?_eq_findSome?, findSome?_both]
  simp only [hsecond]

theorem first?_one_cons (next : Pattern) (c : Char) (rest : List Char) :
    (both (one test) next).first? (c :: rest) = if test c then next.first? rest else none := by
  rw [first?_both, readings]
  split
  · cases hnext : next.first? rest <;> simp [hnext]
  · rfl

theorem first?_many (greedy : Bool) (next : Pattern) (text : List Char) :
    (both (many test greedy) next).first? text =
      (if greedy then (runs test text).reverse else runs test text).findSome?
        fun (_, left) => next.first? left := by
  have hid : ∀ found : Option (List (List Char)), found.map ([] ++ ·) = found := by
    intro found
    cases found <;> rfl
  rw [first?_both, findSome?_many]
  simp only [hid]

theorem first?_field_cons (next : Pattern) (c : Char) (rest : List Char) :
    (both field next).first? (c :: rest) =
      (runs any rest).findSome? fun (run, left) => (next.first? left).map ((c :: run) :: ·) := by
  have hone : (one any).readings (c :: rest) =
      [{ taken := [c], captures := [], rest }] := rfl
  rw [first?_both, field, findSome?_capture, findSome?_both, hone, List.findSome?_singleton,
    findSome?_many]
  rfl

theorem first?_remainder (text : List Char) : remainder.first? text = some [text] := by
  obtain ⟨shorter, hruns⟩ := exists_runs_eq any text
  have hall : ∀ c ∈ text, any c = true := fun _ _ => rfl
  simp [first?, remainder, readings, hruns, List.takeWhile_eq_self_iff.mpr hall]

theorem head?_readings_since (text : List Char) :
    ((since test).readings text).head? =
      if text.head?.any test then some { taken := text, captures := [], rest := [] } else none := by
  cases text with
  | nil => rfl
  | cons c rest =>
      obtain ⟨shorter, hruns⟩ := exists_runs_eq any rest
      have hall : ∀ d ∈ rest, any d = true := fun _ _ => rfl
      cases hc : test c with
      | false => simp [since, readings, hc]
      | true =>
          simp [since, readings, hc, hruns, Reading.followedBy,
            List.takeWhile_eq_self_iff.mpr hall, List.dropWhile_eq_nil_iff.mpr hall]

end Pattern

end LinkedPath.Text
