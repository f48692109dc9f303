import TimedTrace.Decimal.Binary64

namespace TimedTrace

/-- The number `digits * 10 ^ exponent`. -/
structure Decimal where
  digits : Nat
  exponent : Int
  deriving DecidableEq, Repr

/-- The reals that round to `value / unit`: those between `low / unit` and `high / unit`, the two
ends among them if `closed`. -/
structure RoundingInterval where
  low : Nat
  value : Nat
  high : Nat
  unit : Nat
  closed : Bool
  deriving DecidableEq, Repr

namespace RoundingInterval

/-- The interval reaches half way to each neighbour. The neighbour below a power of two is only half
as far away. An end rounds to the number when its mantissa is even. -/
def ofBinary (number : Binary64) : RoundingInterval :=
  let scale := Nat.pow 2 (number.exponent - 2).toNat
  let gap := if number.mantissa = Binary64.leastMantissa then 1 else 2
  { low := (4 * number.mantissa - gap) * scale
    value := 4 * number.mantissa * scale
    high := (4 * number.mantissa + 2) * scale
    unit := Nat.pow 2 (2 - number.exponent).toNat
    closed := number.mantissa % 2 = 0 }

/-- Whether `digits * grid / fine` lies in the interval. -/
def holds (interval : RoundingInterval) (fine grid digits : Nat) : Bool :=
  let point := digits * (grid * interval.unit)
  if interval.closed then interval.low * fine ≤ point && point ≤ interval.high * fine
  else interval.low * fine < point && point < interval.high * fine

/-- The multiple of `10 ^ exponent` in the interval that is nearest to the value. -/
def multiple? (interval : RoundingInterval) (exponent : Int) : Option Decimal :=
  let fine := Nat.pow 10 (-exponent).toNat
  let grid := Nat.pow 10 exponent.toNat
  let exact := interval.value * fine
  let below := exact / (grid * interval.unit)
  let above := below + 1
  match interval.holds fine grid below, interval.holds fine grid above with
  | true, true =>
    let nearBelow := 2 * exact < (2 * below + 1) * (grid * interval.unit)
    some ⟨if nearBelow then below else above, exponent⟩
  | true, false => some ⟨below, exponent⟩
  | false, true => some ⟨above, exponent⟩
  | false, false => none

/-- The first hit on ever finer powers of ten, from one above the value on. A power as fine as the
unit itself has the value among its multiples, so the search never runs dry. -/
def shortest? (interval : RoundingInterval) : Option Decimal :=
  let coarsest := (Nat.toDigits 10 (interval.value / interval.unit)).length
  (List.range (coarsest + interval.unit.log2 + 1)).findSome? fun (step : Nat) =>
    interval.multiple? ((coarsest : Int) - step)

/-- The decimal reads back as the number of the interval. -/
def Contains (interval : RoundingInterval) (decimal : Decimal) : Prop :=
  interval.holds (Nat.pow 10 (-decimal.exponent).toNat) (Nat.pow 10 decimal.exponent.toNat)
    decimal.digits = true

variable {interval : RoundingInterval} {decimal : Decimal} {exponent : Int}

theorem contains_of_multiple? (found : interval.multiple? exponent = some decimal) :
    interval.Contains decimal := by
  unfold multiple? at found
  dsimp only at found
  unfold Contains
  split at found
  · rename_i below above
    cases found
    dsimp only
    split
    · exact below
    · exact above
  · rename_i below _
    cases found
    exact below
  · rename_i _ above
    cases found
    exact above
  · cases found

theorem contains_of_shortest? (found : interval.shortest? = some decimal) :
    interval.Contains decimal := by
  obtain ⟨step, _, hit⟩ := List.exists_of_findSome?_eq_some found
  exact contains_of_multiple? hit

/-- The value itself is a multiple of a power of ten as fine as its unit. -/
theorem exists_multiple? {places : Nat} (unit : interval.unit = Nat.pow 2 places)
    (lower : interval.low < interval.value) (upper : interval.value < interval.high) :
    ∃ decimal, interval.multiple? (-(places : Int)) = some decimal := by
  have fine : (- -(places : Int)).toNat = places := by omega
  have grid : (-(places : Int)).toNat = 0 := by omega
  have ten : Nat.pow 10 places = Nat.pow 5 places * Nat.pow 2 places := Nat.mul_pow 5 2 places
  have divides : Nat.pow 10 0 * interval.unit ∣ interval.value * Nat.pow 10 places := by
    refine ⟨interval.value * Nat.pow 5 places, ?_⟩
    rw [unit, ten, ← Nat.mul_assoc, Nat.mul_comm]
    exact congrArg (· * _) (Nat.one_mul _).symm
  have holds : interval.holds (Nat.pow 10 places) (Nat.pow 10 0)
      (interval.value * Nat.pow 10 places / (Nat.pow 10 0 * interval.unit)) = true := by
    have positive : 0 < Nat.pow 10 places := Nat.pow_pos (by decide)
    have above := Nat.mul_lt_mul_of_pos_right lower positive
    have below := Nat.mul_lt_mul_of_pos_right upper positive
    unfold RoundingInterval.holds
    dsimp only
    rw [Nat.div_mul_cancel divides]
    split
    · exact Bool.and_eq_true_iff.2
        ⟨decide_eq_true (Nat.le_of_lt above), decide_eq_true (Nat.le_of_lt below)⟩
    · exact Bool.and_eq_true_iff.2 ⟨decide_eq_true above, decide_eq_true below⟩
  unfold multiple?
  rw [fine, grid]
  dsimp only
  rw [holds]
  split
  · exact ⟨_, rfl⟩
  · exact ⟨_, rfl⟩
  · rename_i above absurd _
    cases absurd
  · rename_i absurd _
    cases absurd

/-- The search ends at the latest on the power of ten that is as fine as the unit. -/
theorem exists_shortest? {places : Nat} (unit : interval.unit = Nat.pow 2 places)
    (lower : interval.low < interval.value) (upper : interval.value < interval.high) :
    ∃ decimal, interval.shortest? = some decimal := by
  obtain ⟨decimal, found⟩ := exists_multiple? unit lower upper
  have log : interval.unit.log2 = places := unit ▸ Nat.log2_two_pow
  unfold shortest?
  refine Option.isSome_iff_exists.1 (List.findSome?_isSome_iff.2 ?_)
  generalize (Nat.toDigits 10 (interval.value / interval.unit)).length = coarsest
  refine ⟨coarsest + places, List.mem_range.2 (by omega), ?_⟩
  have finest : (coarsest : Int) - (coarsest + places : Nat) = -(places : Int) := by omega
  rw [finest, found]
  rfl

theorem ofBinary_lt (number : Binary64) (positive : 0 < number.mantissa) :
    (ofBinary number).low < (ofBinary number).value ∧
      (ofBinary number).value < (ofBinary number).high := by
  have scale : 0 < Nat.pow 2 (number.exponent - 2).toNat := Nat.pow_pos (by decide)
  constructor
  · refine Nat.mul_lt_mul_of_pos_right ?_ scale
    split
    · omega
    · omega
  · exact Nat.mul_lt_mul_of_pos_right (by omega) scale

end RoundingInterval

/-- The decimal of fewest digits that reads back as the number, and the nearest one of those. -/
def Decimal.shortest (number : Binary64) : Decimal :=
  if number.mantissa = 0 then ⟨0, 0⟩
  else (RoundingInterval.ofBinary number).shortest?.getD ⟨0, 0⟩

theorem Decimal.shortest_contains (number : Binary64) (positive : 0 < number.mantissa) :
    (RoundingInterval.ofBinary number).Contains (shortest number) := by
  obtain ⟨lower, upper⟩ := RoundingInterval.ofBinary_lt number positive
  obtain ⟨decimal, found⟩ := RoundingInterval.exists_shortest? rfl lower upper
  unfold shortest
  rw [if_neg (by omega), found]
  exact RoundingInterval.contains_of_shortest? found

/-- Positional notation: no exponent, no point after a whole number, a zero before a point that
would stand first. -/
def Decimal.positional (decimal : Decimal) : String :=
  let digits := (Nat.toDigits 10 decimal.digits)
  let places := (-decimal.exponent).toNat
  if places = 0 then String.ofList (digits ++ List.replicate decimal.exponent.toNat '0')
  else
    let padded := List.replicate (places + 1 - digits.length) '0' ++ digits
    let whole := padded.length - places
    String.ofList (padded.take whole ++ '.' :: padded.drop whole)

end TimedTrace
