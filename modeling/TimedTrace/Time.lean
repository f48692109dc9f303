namespace TimedTrace

/-- Nanoseconds in a second. -/
def nanosPerSecond : Nat := 1000000000

/-- The nanoseconds of the greatest time: the whole seconds just fit into a 64-bit word. -/
def maxNanos : Nat := UInt64.size * nanosPerSecond - 1

/-- A point in time or a length of time. -/
@[ext] structure Time where
  nanos : Nat
  nanos_le : nanos ≤ maxNanos
  deriving DecidableEq

namespace Time

instance : Repr Time := ⟨fun time _ => repr time.nanos ++ "ns"⟩

/-- The time of so many nanoseconds, or the greatest time if there are more than it has. -/
def ofNanos (nanos : Nat) : Time :=
  ⟨min nanos maxNanos, Nat.min_le_right _ _⟩

def zero : Time := ⟨0, Nat.zero_le _⟩

def greatest : Time := ⟨maxNanos, Nat.le_refl _⟩

instance : Inhabited Time := ⟨zero⟩

instance : LE Time := ⟨fun a b => a.nanos ≤ b.nanos⟩

instance : LT Time := ⟨fun a b => a.nanos < b.nanos⟩

instance (a b : Time) : Decidable (a ≤ b) := inferInstanceAs (Decidable (a.nanos ≤ b.nanos))

instance (a b : Time) : Decidable (a < b) := inferInstanceAs (Decidable (a.nanos < b.nanos))

instance : Ord Time := ⟨fun a b => compare a.nanos b.nanos⟩

theorem le_def {a b : Time} : a ≤ b ↔ a.nanos ≤ b.nanos := Iff.rfl

theorem lt_def {a b : Time} : a < b ↔ a.nanos < b.nanos := Iff.rfl

theorem le_greatest (time : Time) : time ≤ greatest := time.nanos_le

/-- The sum, or the greatest time if the sum is beyond it. -/
def add (a b : Time) : Time := ofNanos (a.nanos + b.nanos)

/-- The difference, or zero if `b` is the later of the two. -/
def sub (a b : Time) : Time :=
  ⟨a.nanos - b.nanos, Nat.le_trans (Nat.sub_le _ _) a.nanos_le⟩

/-- Whole seconds. -/
def seconds (time : Time) : Nat := time.nanos / nanosPerSecond

/-- Nanoseconds beyond the whole seconds. -/
def subsecond (time : Time) : Nat := time.nanos % nanosPerSecond

/-- The time as an instant on the line of integers, where folds may step before zero. -/
def toInstant (time : Time) : Int := time.nanos

/-- The time at an instant; there is none before zero or beyond the greatest. -/
def ofInstant? (instant : Int) : Option Time :=
  if bounds : 0 ≤ instant ∧ instant.toNat ≤ maxNanos then some ⟨instant.toNat, bounds.2⟩ else none

theorem ofInstant?_toInstant (time : Time) : ofInstant? time.toInstant = some time := by
  have bounds : 0 ≤ time.toInstant ∧ time.toInstant.toNat ≤ maxNanos := by
    have := time.nanos_le
    simp only [toInstant]
    omega
  simp [ofInstant?, bounds]
  rfl

theorem toInstant_of_ofInstant? {instant : Int} {time : Time}
    (found : ofInstant? instant = some time) : time.toInstant = instant := by
  unfold ofInstant? at found
  split at found
  · cases found
    simp only [toInstant]
    omega
  · cases found

theorem ofInstant?_eq_none_iff {instant : Int} :
    ofInstant? instant = none ↔ instant < 0 ∨ (maxNanos : Int) < instant := by
  unfold ofInstant?
  split
  · simp; omega
  · simp; omega

theorem toInstant_nonneg (time : Time) : 0 ≤ time.toInstant := Int.natCast_nonneg _

theorem toInstant_le (time : Time) : time.toInstant ≤ maxNanos := Int.ofNat_le.2 time.nanos_le

end Time

end TimedTrace
