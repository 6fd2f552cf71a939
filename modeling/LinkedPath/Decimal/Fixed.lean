import LinkedPath.Decimal.Binary

/-!
# Decimals with a fixed number of places

A fraction is rounded to the nearest multiple of a power of ten, a half going
to the even neighbour, and written with all its places.
-/

namespace LinkedPath.Decimal

/-- The nearest natural to `num / den`, a half going to the even neighbour. -/
def roundHalfEven (num den : Nat) : Nat :=
  let floor := num / den
  let twice := 2 * (num % den)
  if twice < den then floor
  else if den < twice then floor + 1
  else if floor % 2 = 0 then floor else floor + 1

/-- The digits of `n`, filled up with leading zeros to a length. -/
def paddedDigits (length n : Nat) : List Char :=
  let digits := (toString n).toList
  List.replicate (length - digits.length) '0' ++ digits

/-- A fraction with a point and exactly `places` digits after it. -/
def fixed (places num den : Nat) : String :=
  let scale := Nat.pow 10 places
  let units := roundHalfEven (num * scale) den
  toString (units / scale) ++ "." ++ String.ofList (paddedDigits places (units % scale))

/-- Rounding is off by at most half a unit. -/
theorem roundHalfEven_near (num den : Nat) (h : 0 < den) :
    2 * (roundHalfEven num den * den) ≤ 2 * num + den ∧
      2 * num ≤ 2 * (roundHalfEven num den * den) + den := by
  have hsplit := Nat.div_add_mod num den
  have hlt := Nat.mod_lt num h
  have hcomm : num / den * den = den * (num / den) := Nat.mul_comm _ _
  unfold roundHalfEven
  simp only
  split
  · rw [hcomm]
    omega
  · split
    · rw [Nat.add_mul, hcomm]
      omega
    · split
      · rw [hcomm]
        omega
      · rw [Nat.add_mul, hcomm]
        omega

/-- A half goes to the even neighbour. -/
theorem roundHalfEven_tie (n : Nat) : roundHalfEven (2 * n + 1) 2 % 2 = 0 := by
  have hdiv : (2 * n + 1) / 2 = n := by omega
  have hmod : (2 * n + 1) % 2 = 1 := by omega
  simp only [roundHalfEven, hdiv, hmod]
  by_cases heven : n % 2 = 0
  · simp [heven]
  · simp [heven]
    omega

end LinkedPath.Decimal
