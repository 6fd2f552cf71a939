import LinkedPath.Text.Blank

/-!
# Parts of a selector

A selector text is read from left to right into parts.  Reading never fails:
a bracket group with an equals sign is a predicate, a `>` is the child
combinator, and whatever is neither is a segment.  `next` takes the parts at
the start of a text, and `next_shorter` says that it always takes something,
so `split` ends on every text.
-/

namespace LinkedPath

/-- A part of a selector, in reading order. -/
inductive Part
  /-- A node without a name of its own, before a predicate. -/
  | anchor
  /-- A bracket group `[key=value]`. -/
  | predicate (key value : String)
  /-- The combinator `>`. -/
  | child
  /-- A name or any other text. -/
  | segment (text : String)
  deriving DecidableEq, Repr

namespace Part

open Text (isBlank trim trimStart)

/-- Text that runs up to a stop character but holds at least one character, be
it the stop character itself; and what follows the stop. -/
def field? (stop : Char) : List Char → Option (List Char × List Char)
  | [] => none
  | c :: more =>
      match more.dropWhile (· != stop) with
      | [] => none
      | _ :: rest => some (c :: more.takeWhile (· != stop), rest)

/-- A bracket group at the start of a text. -/
structure Group where
  /-- Blanks, and at most one star behind them. -/
  lead : List Char
  key : List Char
  value : List Char
  /-- What follows the group. -/
  rest : List Char
  deriving DecidableEq, Repr

/-- An optional star, and what follows it. -/
def star : List Char → List Char × List Char
  | '*' :: rest => (['*'], rest)
  | text => ([], text)

/-- The key and the value of a bracket group whose bracket has been read, and
what follows the group. -/
def groupBody? (body : List Char) : Option (List Char × List Char × List Char) :=
  match field? '=' body with
  | none => none
  | some (key, behind) =>
      (field? ']' behind).map fun (value, rest) => (key, value, rest)

/-- The bracket group that a text starts with. -/
def group? (text : List Char) : Option Group :=
  let starred := star (text.dropWhile isBlank)
  match starred.2 with
  | '[' :: body =>
      (groupBody? body).map fun (key, value, rest) =>
        { lead := text.takeWhile isBlank ++ starred.1, key, value, rest }
  | _ => none

/-- What follows a combinator and the blanks around it, when a text starts with
one. -/
def childRest? (text : List Char) : Option (List Char) :=
  match trimStart text with
  | '>' :: rest => some (trimStart rest)
  | _ => none

/-- A character that ends the segment before it. -/
def endsSegment (c : Char) : Bool :=
  isBlank c || c == '[' || c == '>'

/-- The parts of a bracket group: its lead is a node of its own. -/
def ofGroup (group : Group) : List Part :=
  let test := predicate (String.ofList (trim group.key)) (String.ofList (trim group.value))
  if group.lead.isEmpty then [test] else [anchor, test]

/-- The part of a segment, unless it is blank. -/
def ofSegment (text : List Char) : List Part :=
  match trim text with
  | [] => []
  | c :: rest => [segment (String.ofList (c :: rest))]

/-- The parts at the start of the text `c :: rest`, and what follows them.  A
segment has at least one character, whatever that is. -/
def next (c : Char) (rest : List Char) : List Part × List Char :=
  match group? (c :: rest) with
  | some group => (ofGroup group, group.rest)
  | none =>
      match childRest? (c :: rest) with
      | some left => ([child], left)
      | none =>
          (ofSegment (c :: rest.takeWhile fun d => !endsSegment d),
            rest.dropWhile fun d => !endsSegment d)

/-! ## Every step takes something -/

theorem field?_shorter {stop : Char} {text field rest : List Char}
    (h : field? stop text = some (field, rest)) : rest.length < text.length := by
  unfold field? at h
  split at h
  · contradiction
  · rename_i c more
    have hdrop : (more.dropWhile (· != stop)).length ≤ more.length :=
      (List.dropWhile_suffix _).length_le
    split at h
    · contradiction
    · rename_i hbehind
      rw [hbehind] at hdrop
      cases h
      simp only [List.length_cons] at *
      omega

theorem groupBody?_shorter {body key value rest : List Char}
    (h : groupBody? body = some (key, value, rest)) : rest.length < body.length := by
  unfold groupBody? at h
  split at h
  · contradiction
  · rename_i found behind hkey
    have hfirst := field?_shorter hkey
    cases hvalue : field? ']' behind with
    | none => simp [hvalue] at h
    | some last =>
        obtain ⟨text, left⟩ := last
        have hsecond := field?_shorter hvalue
        simp only [hvalue, Option.map_some, Option.some.injEq, Prod.mk.injEq] at h
        obtain ⟨-, -, rfl⟩ := h
        omega

theorem star_length_le (text : List Char) : (star text).2.length ≤ text.length := by
  unfold star
  split <;> simp

theorem group?_shorter {text : List Char} {group : Group}
    (h : group? text = some group) : group.rest.length < text.length := by
  have hdrop : (text.dropWhile isBlank).length ≤ text.length :=
    (List.dropWhile_suffix isBlank).length_le
  have hstar := star_length_le (text.dropWhile isBlank)
  simp only [group?] at h
  split at h
  · rename_i body hbody
    rw [hbody] at hstar
    cases hgroup : groupBody? body with
    | none => simp [hgroup] at h
    | some found =>
        obtain ⟨key, value, left⟩ := found
        have hshort := groupBody?_shorter hgroup
        simp only [hgroup, Option.map_some, Option.some.injEq] at h
        subst h
        simp only [List.length_cons] at *
        omega
  · contradiction

theorem childRest?_shorter {text rest : List Char}
    (h : childRest? text = some rest) : rest.length < text.length := by
  have htrim := Text.trimStart_length_le text
  unfold childRest? at h
  split at h
  · rename_i left hleft
    have hrest := Text.trimStart_length_le left
    rw [hleft] at htrim
    cases h
    simp only [List.length_cons] at htrim
    omega
  · contradiction

theorem next_shorter (c : Char) (rest : List Char) :
    (next c rest).2.length < (c :: rest).length := by
  unfold next
  split
  · rename_i group hgroup
    exact group?_shorter hgroup
  · split
    · rename_i left hleft
      exact childRest?_shorter hleft
    · have hdrop : (rest.dropWhile fun d => !endsSegment d).length ≤ rest.length :=
        (List.dropWhile_suffix _).length_le
      simp only [List.length_cons]
      omega

/-- The parts of a text whose ends are not blank. -/
def scan : List Char → List Part
  | [] => []
  | c :: rest => (next c rest).1 ++ scan (next c rest).2
termination_by text => text.length
decreasing_by exact next_shorter c rest

/-- The parts of a selector. -/
def split (query : String) : List Part :=
  scan (trim query.toList)

@[simp] theorem scan_nil : scan [] = [] := by rw [scan]

theorem scan_cons (c : Char) (rest : List Char) :
    scan (c :: rest) = (next c rest).1 ++ scan (next c rest).2 := by
  rw [scan]

end Part

end LinkedPath
