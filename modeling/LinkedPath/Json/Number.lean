import LinkedPath.Decimal.Shortest

/-!
# Numbers of a document

A number without point and exponent that fits a signed or an unsigned word
stays an integer.  Every other number becomes a double: its leading digits are
gathered into a word as long as they fit, and the result is scaled by one
power of ten.  This reading is not always the nearest double, so it is spelled
out here step by step.
-/

namespace LinkedPath

/-- A number of a document. -/
inductive Number
  | integer (value : Int)
  | real (value : Float)
  deriving DecidableEq, Repr, Inhabited

namespace Number

/-- Decimals from a hundred-thousandth up to, but not including, ten to the
sixteenth are written positionally. -/
def layout : Decimal.Layout :=
  { leastPositional := -5, greatestPositional := 15 }

/-- The text of a number: an integer by its digits, a double by its shortest
decimal. -/
def text : Number → String
  | integer value => toString value
  | real value => Decimal.floatText layout value

/-- The parts of a written number. -/
structure Literal where
  negative : Bool
  /-- The digits before the point. -/
  whole : List Char
  /-- The digits after the point, when there is one. -/
  places? : Option (List Char)
  /-- The power of ten, when one is written. -/
  power? : Option Int
  deriving DecidableEq, Repr

/-- The greatest unsigned word. -/
def maxWord : Nat := Nat.pow 2 64 - 1

/-- The value of a decimal digit. -/
def digitValue (c : Char) : Nat := c.toNat - '0'.toNat

/-- Append digits to a word as long as the result fits; also the digits that
were left over. -/
def gather : Nat → List Char → Nat × List Char
  | word, [] => (word, [])
  | word, digit :: rest =>
      let next := word * 10 + digitValue digit
      if next ≤ maxWord then gather next rest else (word, digit :: rest)

/-- The value of a digit sequence. -/
def digitsValue (digits : List Char) : Nat :=
  digits.foldl (fun value digit => value * 10 + digitValue digit) 0

/-- A power of ten as a double, for exponents up to 308. -/
def powerOfTen (exponent : Nat) : Float :=
  Float.ofScientific 1 false exponent

/-- Scale a double by a power of ten with one multiplication or division;
below `1e-308` by repeated division.  There is no result beyond the greatest
double. -/
def scale? (x : Float) (exponent : Int) : Option Float :=
  if exponent.natAbs ≤ 308 then
    if 0 ≤ exponent then
      let scaled := x * powerOfTen exponent.natAbs
      if scaled.isInf then none else some scaled
    else
      some (x / powerOfTen exponent.natAbs)
  else if x == 0 then
    some x
  else if 0 ≤ exponent then
    none
  else
    scale? (x / powerOfTen 308) (exponent + 308)
termination_by exponent.natAbs
decreasing_by omega

/-- The double nearest to a word. -/
def wordToFloat (word : Nat) : Float := word.toUInt64.toFloat

/-- The double that a literal stands for.  Digits before the point that do not
fit the word count as zeros, digits after it that do not fit are left out. -/
def Literal.real? (literal : Literal) : Option Float :=
  let (head, leftWhole) := gather 0 literal.whole
  let places := literal.places?.getD []
  let (word, leftPlaces) := gather head places
  let exponent : Int :=
    leftWhole.length - (places.length - leftPlaces.length : Nat) + literal.power?.getD 0
  (scale? (wordToFloat word) exponent).map fun size =>
    if literal.negative then -size else size

/-- The number that a literal stands for, unless it is beyond the greatest
double.  A negative zero is a double. -/
def Literal.value? (literal : Literal) : Option Number :=
  let size := digitsValue literal.whole
  if literal.places?.isSome || literal.power?.isSome then
    literal.real?.map real
  else if literal.negative then
    if 1 ≤ size ∧ size ≤ Nat.pow 2 63 then some (integer (-size)) else literal.real?.map real
  else if size ≤ maxWord then
    some (integer size)
  else
    literal.real?.map real

/-- The longest run of decimal digits at the start, and what follows. -/
def digitRun (text : List Char) : List Char × List Char :=
  (text.takeWhile Char.isDigit, text.dropWhile Char.isDigit)

/-- An optional minus: whether it is there, and what follows. -/
def minus : List Char → Bool × List Char
  | '-' :: rest => (true, rest)
  | text => (false, text)

/-- An optional sign: whether it is a minus, and what follows. -/
def sign : List Char → Bool × List Char
  | '+' :: rest => (false, rest)
  | text => minus text

/-- An exponent with its optional sign, after its letter. -/
def power? (text : List Char) : Option (Int × List Char) :=
  let signed := sign text
  let run := digitRun signed.2
  if run.1.isEmpty then
    none
  else
    let size : Int := digitsValue run.1
    some (if signed.1 then -size else size, run.2)

/-- The digits after the point, when there is one. -/
def places? : List Char → Option (Option (List Char) × List Char)
  | '.' :: rest =>
      let run := digitRun rest
      if run.1.isEmpty then none else some (some run.1, run.2)
  | text => some (none, text)

/-- The letter that introduces an exponent. -/
def isPowerLetter (c : Char) : Bool := c == 'e' || c == 'E'

/-- The exponent, when its letter comes next. -/
def optionalPower? : List Char → Option (Option Int × List Char)
  | [] => some (none, [])
  | c :: rest =>
      if isPowerLetter c then
        (power? rest).map fun (power, rest) => (some power, rest)
      else
        some (none, c :: rest)

/-- Leading zeros make no whole part. -/
def isWhole (digits : List Char) : Bool :=
  !digits.isEmpty && (digits.length == 1 || digits.head? != some '0')

/-- The number at the start of a text, and what follows: an optional minus, a
whole part without leading zeros, a fraction and an exponent. -/
def literal? (text : List Char) : Option (Literal × List Char) :=
  let signed := minus text
  let run := digitRun signed.2
  if isWhole run.1 then
    match places? run.2 with
    | none => none
    | some (places?, rest) =>
        (optionalPower? rest).map fun (power?, rest) =>
          ({ negative := signed.1, whole := run.1, places?, power? }, rest)
  else
    none

/-! ## A number takes something from the text -/

theorem digitRun_append (text : List Char) :
    (digitRun text).1 ++ (digitRun text).2 = text :=
  List.takeWhile_append_dropWhile

theorem digitRun_length (text : List Char) :
    (digitRun text).1.length + (digitRun text).2.length = text.length := by
  rw [← List.length_append, digitRun_append]

theorem minus_length_le (text : List Char) : (minus text).2.length ≤ text.length := by
  unfold minus
  split <;> simp

theorem sign_length_le (text : List Char) : (sign text).2.length ≤ text.length := by
  unfold sign
  split
  · simp
  · exact minus_length_le _

theorem power?_length_le {text rest : List Char} {power : Int}
    (h : power? text = some (power, rest)) : rest.length ≤ text.length := by
  have hsign := sign_length_le text
  have hrun := digitRun_length (sign text).2
  simp only [power?] at h
  split at h
  · contradiction
  · simp only [Option.some.injEq, Prod.mk.injEq] at h
    obtain ⟨-, rfl⟩ := h
    omega

theorem places?_length_le {text rest : List Char} {digits : Option (List Char)}
    (h : places? text = some (digits, rest)) : rest.length ≤ text.length := by
  unfold places? at h
  split at h
  · rename_i body
    have hrun := digitRun_length body
    simp only at h
    split at h
    · contradiction
    · simp only [Option.some.injEq, Prod.mk.injEq] at h
      obtain ⟨-, rfl⟩ := h
      simp only [List.length_cons]
      omega
  · cases h
    exact Nat.le_refl _

theorem optionalPower?_length_le {text rest : List Char} {power : Option Int}
    (h : optionalPower? text = some (power, rest)) : rest.length ≤ text.length := by
  unfold optionalPower? at h
  split at h
  · cases h
    exact Nat.le_refl _
  · split at h
    · rename_i body _
      cases hp : power? body with
      | none => simp [hp] at h
      | some found =>
          obtain ⟨size, after⟩ := found
          have := power?_length_le hp
          simp only [hp, Option.map_some, Option.some.injEq, Prod.mk.injEq] at h
          obtain ⟨-, rfl⟩ := h
          simp only [List.length_cons]
          omega
    · cases h
      exact Nat.le_refl _

theorem literal?_shorter {text rest : List Char} {literal : Literal}
    (h : literal? text = some (literal, rest)) : rest.length < text.length := by
  have hsign := minus_length_le text
  have hrun := digitRun_length (minus text).2
  simp only [literal?] at h
  split at h
  · rename_i hwhole
    have hpos : 0 < (digitRun (minus text).2).1.length := by
      cases hdigits : (digitRun (minus text).2).1 with
      | nil => simp [isWhole, hdigits] at hwhole
      | cons => simp
    split at h
    · contradiction
    · rename_i digits middle hplaces
      have hmiddle := places?_length_le hplaces
      cases hp : optionalPower? middle with
      | none => simp [hp] at h
      | some found =>
          obtain ⟨power, after⟩ := found
          have hafter := optionalPower?_length_le hp
          simp only [hp, Option.map_some, Option.some.injEq, Prod.mk.injEq] at h
          obtain ⟨-, rfl⟩ := h
          omega
  · contradiction

end Number

end LinkedPath
