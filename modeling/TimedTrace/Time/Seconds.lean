import TimedTrace.Time
import TimedTrace.Decimal.Shortest

namespace TimedTrace

/-- The time in seconds as a binary64 number: the whole seconds and the fraction are each rounded,
and so is their sum. -/
def Time.toBinary64 (time : Time) : Binary64 :=
  (Binary64.nearest time.seconds 1).add (Binary64.nearest time.subsecond nanosPerSecond)

/-- The shortest decimal that reads back as the time in seconds, in positional notation. -/
def Time.secondsText (time : Time) : String :=
  (Decimal.shortest time.toBinary64).positional

/-- The seconds are written as a decimal that reads back as their number, or as zero if that is
zero. -/
theorem Time.secondsText_eq (time : Time) :
    ∃ decimal : Decimal, time.secondsText = decimal.positional ∧
      if time.toBinary64.mantissa = 0 then decimal = ⟨0, 0⟩
      else (RoundingInterval.ofBinary time.toBinary64).Contains decimal := by
  refine ⟨Decimal.shortest time.toBinary64, rfl, ?_⟩
  split
  · rename_i zero
    rw [Decimal.shortest, if_pos zero]
  · exact Decimal.shortest_contains _ (by omega)

example : (Time.ofNanos 1500000000).secondsText = "1.5" := by decide +kernel

/-- Of two shortest decimals that are equally near the upper one is written. -/
example : (Time.ofNanos 1000000000086400250000001).secondsText = "1000000000086400.3" := by
  decide +kernel

end TimedTrace
