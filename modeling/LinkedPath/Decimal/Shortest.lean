import LinkedPath.Decimal.Binary

/-!
# Shortest decimals

The decimal with the fewest digits that reads back as a given double, and of
those the nearest.  A decimal reads back when it lies in the interval of reals
that round to the double, whose ends belong to it exactly when the mantissa is
even.  The search starts on a grid of powers of ten coarser than the number
and refines it until one of the two neighbours of the number on the grid lies
in the interval.
-/

namespace LinkedPath.Decimal

/-- A decimal `digits * 10 ^ exponent`. -/
structure Scientific where
  digits : Nat
  exponent : Int
  deriving DecidableEq, Repr

/-- The factor that brings points of the grid `10 ^ grid` and quarters of the
mantissa unit of `b` to a common unit: `(for points, for quarters)`. -/
def commonUnit (b : Binary) (grid : Int) : Nat × Nat :=
  let quarter := b.exponent - 2
  (Nat.pow 10 grid.toNat * Nat.pow 2 (-quarter).toNat,
    Nat.pow 2 quarter.toNat * Nat.pow 10 (-grid).toNat)

/-- The point `point * 10 ^ grid` is read as the double `b`. -/
def readsBack (b : Binary) (grid : Int) (point : Nat) : Bool :=
  let unit := commonUnit b grid
  let value := point * unit.1
  let low := (4 * b.mantissa - if b.closeBelow then 1 else 2) * unit.2
  let high := (4 * b.mantissa + 2) * unit.2
  if b.mantissa % 2 = 0 then
    low ≤ value && value ≤ high
  else
    low < value && value < high

/-- Of the two neighbours of `b` on a grid the one that reads back, and of two
the nearer; of two equally near the even one. -/
def onGrid? (b : Binary) (grid : Int) : Option Nat :=
  let unit := commonUnit b grid
  let exact := 4 * b.mantissa * unit.2
  let below := exact / unit.1
  let above := below + 1
  match readsBack b grid below, readsBack b grid above with
  | false, false => none
  | true, false => some below
  | false, true => some above
  | true, true =>
      let middle := (below + above) * unit.1
      if 2 * exact < middle then some below
      else if middle < 2 * exact then some above
      else if below % 2 = 0 then some below else some above

/-- The first hit on ever finer grids. -/
def refine (b : Binary) : Nat → Int → Scientific
  | 0, grid => { digits := b.mantissa, exponent := grid }
  | tries + 1, grid =>
      match onGrid? b grid with
      | some digits => { digits, exponent := grid }
      | none => refine b tries (grid - 1)

/-- A grid that is coarser than the number, by at most three powers of ten. -/
def coarseGrid (b : Binary) : Int :=
  ((b.mantissa.log2 : Int) + 1 + b.exponent) * 30103 / 100000 + 1

/-- The shortest decimal of a positive double.  Seventeen digits always read
back, so the grids tried include one with a hit. -/
def shortest (b : Binary) : Scientific :=
  refine b 24 (coarseGrid b)

/-- How the digits of a decimal are laid out. -/
structure Layout where
  /-- The least scientific exponent that is written positionally. -/
  leastPositional : Int
  /-- The greatest scientific exponent that is written positionally. -/
  greatestPositional : Int
  deriving DecidableEq, Repr

/-- A decimal with its point in place: at least one digit on either side. -/
def positional (digits : List Char) (exponent : Int) : List Char :=
  if 0 ≤ exponent then
    digits ++ List.replicate exponent.toNat '0' ++ ['.', '0']
  else
    let places := (-exponent).toNat
    if places < digits.length then
      digits.take (digits.length - places) ++ '.' :: digits.drop (digits.length - places)
    else
      '0' :: '.' :: List.replicate (places - digits.length) '0' ++ digits

/-- A decimal with one digit before the point and a power of ten behind it; the
power has its sign, also when it is positive. -/
def scientific (digits : List Char) (power : Int) : List Char :=
  let lead := match digits with
    | [] => []
    | [d] => [d]
    | d :: more => d :: '.' :: more
  let sign := if power < 0 then '-' else '+'
  lead ++ 'e' :: sign :: (toString power.natAbs).toList

/-- The text of a positive decimal under a layout. -/
def Scientific.text (layout : Layout) (s : Scientific) : List Char :=
  let digits := (toString s.digits).toList
  let power := s.exponent + digits.length - 1
  if layout.leastPositional ≤ power ∧ power ≤ layout.greatestPositional then
    positional digits s.exponent
  else
    scientific digits power

/-- The text of a finite double: its shortest decimal, with the sign in front
of every number whose sign bit is set, zero included. -/
def floatText (layout : Layout) (x : Float) : String :=
  let b := Binary.ofFloat x
  let size := if b.mantissa = 0 then ['0', '.', '0'] else (shortest b).text layout
  String.ofList (if isNegative x then '-' :: size else size)

/-- A hit on a grid reads back. -/
theorem readsBack_of_onGrid? {b : Binary} {grid : Int} {digits : Nat}
    (h : onGrid? b grid = some digits) : readsBack b grid digits = true := by
  unfold onGrid? at h
  simp only at h
  split at h
  · contradiction
  · cases h
    assumption
  · cases h
    assumption
  · split at h
    · cases h
      assumption
    · split at h
      · cases h
        assumption
      · split at h <;> cases h <;> assumption

end LinkedPath.Decimal
