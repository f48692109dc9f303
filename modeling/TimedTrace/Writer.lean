import TimedTrace.Clock
import TimedTrace.Ring.Basic

namespace TimedTrace

/-- A writer gives the values it is handed a time from its clock, and remembers the last event that
it has got into the ring. -/
structure Writer (α : Type) where
  clock : Clock
  last : Option (Event α)
  deriving DecidableEq, Repr

namespace Writer

variable {α : Type}

/-- A writer that has published nothing yet. -/
def withClock (clock : Clock) : Writer α := ⟨clock, none⟩

/-- The reading of the writer's clock. -/
def now (writer : Writer α) (manual : ManualClock) : Time := writer.clock.now manual

/-- The value at the time it is now. -/
def stamp (writer : Writer α) (manual : ManualClock) (data : α) : Event α :=
  ⟨data, writer.now manual⟩

/-- The writer after an attempt to append the event. Only a success is remembered. -/
def note (writer : Writer α) (event : Event α) (result : Except RingError Admission) : Writer α :=
  match result with
  | .ok _ => { writer with last := some event }
  | .error _ => writer

end Writer

end TimedTrace
