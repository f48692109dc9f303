namespace TimedTrace

/-- The number `mantissa * 2 ^ exponent`. A positive one has `2 ^ 52 ≤ mantissa < 2 ^ 53`. Times are
far from both ends of the range of exponents, so neither subnormal numbers nor infinity occur. -/
structure Binary64 where
  mantissa : Nat
  exponent : Int
  deriving DecidableEq, Repr

namespace Binary64

/-- The least mantissa of a positive number, `2 ^ 52`: all 53 bits are used. -/
def leastMantissa : Nat := 4503599627370496

/-- The integer nearest to `num / den`; of two equally near the even one. -/
def halfEven (num den : Nat) : Nat :=
  let below := num / den
  let rest := num % den
  if 2 * rest < den then below
  else if den < 2 * rest then below + 1
  else below + below % 2

/-- `num / den` counted in units of `2 ^ exponent`, as a numerator and a denominator. -/
def scaled (num den : Nat) (exponent : Int) : Nat × Nat :=
  (num * Nat.pow 2 (-exponent).toNat, den * Nat.pow 2 exponent.toNat)

/-- The number nearest to `num / den`. -/
def nearest (num den : Nat) : Binary64 :=
  if num = 0 then ⟨0, 0⟩
  else
    let coarse : Int := num.log2 - den.log2 - 52
    let (units, unit) := scaled num den coarse
    let exponent := if units < leastMantissa * unit then coarse - 1 else coarse
    let (units, unit) := scaled num den exponent
    let mantissa := halfEven units unit
    if mantissa = 2 * leastMantissa then ⟨leastMantissa, exponent + 1⟩ else ⟨mantissa, exponent⟩

/-- The number nearest to the sum. -/
def add (a b : Binary64) : Binary64 :=
  let exponent := min a.exponent b.exponent
  let units := a.mantissa * Nat.pow 2 (a.exponent - exponent).toNat
    + b.mantissa * Nat.pow 2 (b.exponent - exponent).toNat
  nearest (units * Nat.pow 2 exponent.toNat) (Nat.pow 2 (-exponent).toNat)

theorem nearest_zero (den : Nat) : nearest 0 den = ⟨0, 0⟩ := rfl

/-- Rounding to an integer is off by at most a half. -/
theorem halfEven_error {num den : Nat} (positive : 0 < den) :
    2 * num ≤ 2 * (halfEven num den * den) + den ∧
      2 * (halfEven num den * den) ≤ 2 * num + den := by
  have split := Nat.div_add_mod num den
  have small := Nat.mod_lt num positive
  have commute : num / den * den = den * (num / den) := Nat.mul_comm _ _
  have next : (num / den + 1) * den = den * (num / den) + den := by
    rw [Nat.add_mul, commute, Nat.one_mul]
  unfold halfEven
  dsimp only
  split
  · omega
  · split
    · omega
    · rcases Nat.mod_two_eq_zero_or_one (num / den) with even | odd
      · rw [even, Nat.add_zero]; omega
      · rw [odd]; omega

end Binary64

end TimedTrace
