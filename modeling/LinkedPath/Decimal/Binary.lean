/-!
# Binary numbers as integers

A finite double is `mantissa * 2 ^ exponent` for a natural mantissa.  Decimal
texts are computed from these two integers in exact arithmetic, so nothing
here depends on how floating-point operations round.
-/

namespace LinkedPath.Decimal

/-- The size of a finite double, exactly. -/
structure Binary where
  /-- The significant bits as a natural number. -/
  mantissa : Nat
  /-- The power of two that scales the mantissa. -/
  exponent : Int
  /-- The next smaller double is only half a unit of the mantissa away. -/
  closeBelow : Bool
  deriving DecidableEq, Repr

/-- The number of stored mantissa bits of a double. -/
def storedBits : Nat := 52

/-- Split the bits of a finite double into its size; the sign is not looked
at. -/
def Binary.ofFloat (x : Float) : Binary :=
  let bits := x.toBits.toNat
  let stored := bits % Nat.pow 2 storedBits
  let scale := bits / Nat.pow 2 storedBits % 2048
  if scale = 0 then
    { mantissa := stored, exponent := -1074, closeBelow := false }
  else
    { mantissa := Nat.pow 2 storedBits + stored
      exponent := (scale : Int) - 1075
      closeBelow := stored == 0 && scale != 1 }

/-- The sign bit of a double is set. -/
def isNegative (x : Float) : Bool :=
  x.toBits.toNat / Nat.pow 2 63 == 1

/-- The exact size as a fraction of two naturals. -/
def Binary.fraction (b : Binary) : Nat × Nat :=
  (b.mantissa * Nat.pow 2 b.exponent.toNat, Nat.pow 2 (-b.exponent).toNat)

theorem Binary.fraction_den_pos (b : Binary) : 0 < b.fraction.2 := by
  exact Nat.pow_pos (by decide)

end LinkedPath.Decimal
