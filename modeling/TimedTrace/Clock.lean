import TimedTrace.Time

namespace TimedTrace

/-- A clock moved by hand, which stands still in between. It counts nanoseconds in a word, so its
range is shorter than that of a time. -/
structure ManualClock where
  nanos : UInt64
  deriving DecidableEq, Repr, Inhabited

namespace ManualClock

/-- The nanoseconds of a time, or the greatest word if they do not fit. -/
def word (time : Time) : UInt64 := UInt64.ofNat (min time.nanos (UInt64.size - 1))

/-- A clock that stands at the given time. -/
def startingAt (time : Time) : ManualClock := ⟨word time⟩

/-- Moves the clock ahead. The word wraps around, it does not stop at its end. -/
def advance (clock : ManualClock) (amount : Time) : ManualClock := ⟨clock.nanos + word amount⟩

def set (_ : ManualClock) (time : Time) : ManualClock := startingAt time

/-- The reading. -/
def now (clock : ManualClock) : Time :=
  ⟨clock.nanos.toNat, by
    have := clock.nanos.toNat_lt
    simp only [maxNanos, nanosPerSecond, UInt64.size]
    omega⟩

theorem word_toNat (time : Time) : (word time).toNat = min time.nanos (UInt64.size - 1) := by
  simp only [word, UInt64.toNat_ofNat', UInt64.size]
  omega

theorem now_startingAt {time : Time} (fits : time.nanos < UInt64.size) :
    (startingAt time).now = time := by
  apply Time.ext
  simp only [UInt64.size] at fits
  simp only [now, startingAt, word_toNat, UInt64.size]
  omega

end ManualClock

/-- Where a writer takes the times of its events from: a reading that never changes, or the manual
clock that it shares with others. -/
inductive Clock where
  | fixed (reading : Time)
  | shared
  deriving DecidableEq, Repr

/-- The reading, given the manual clock that is shared. -/
def Clock.now (manual : ManualClock) : Clock → Time
  | .fixed reading => reading
  | .shared => manual.now

end TimedTrace
