import TimedTrace.Time.Seconds
import TimedTrace.Verdict

namespace TimedTrace

/-- An amount of time, and whether part of the stretch it was taken over could not be decided. The
amount counts decided parts only, so an undecided part makes it a lower bound. -/
structure Measure where
  value : Time
  unknown : Bool
  deriving DecidableEq, Repr, Inhabited

namespace Measure

/-- An amount taken over a stretch that is decided throughout. -/
def known (value : Time) : Measure := ⟨value, false⟩

/-- Two amounts compare only if both are known. -/
def lessThan (a b : Measure) : Verdict :=
  if a.unknown || b.unknown then .unknown else .ofBool (a.value < b.value)

def add (a b : Measure) : Measure := ⟨a.value.add b.value, a.unknown || b.unknown⟩

/-- More of the formula's time, up to the greatest. -/
def extend (measure : Measure) (length : Time) : Measure :=
  { measure with value := measure.value.add length }

/-- Part of the stretch is undecided. -/
def taint (measure : Measure) : Measure := { measure with unknown := true }

def text (measure : Measure) : String :=
  measure.value.secondsText ++ "s" ++ if measure.unknown then " (unknown)" else ""

end Measure

end TimedTrace
