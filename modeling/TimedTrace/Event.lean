import TimedTrace.Time.Seconds

namespace TimedTrace

/-- A value and the time it was observed at. Along a trace the value stays in force until the next
event. -/
structure Event (α : Type) where
  data : α
  time : Time
  deriving DecidableEq, Repr, Inhabited

namespace Event

variable {α : Type}

/-- The same value at another time. -/
def withTime (event : Event α) (time : Time) : Event α := { event with time }

/-- The order along a trace is by time alone. -/
def compareTime (a b : Event α) : Ordering := compare a.time b.time

/-- Where the event stands against a bare time. -/
def compareWith (event : Event α) (time : Time) : Ordering := compare event.time time

def text [ToString α] (event : Event α) : String :=
  "(" ++ toString event.data ++ ", " ++ event.time.secondsText ++ "s)"

@[simp] theorem withTime_data (event : Event α) (time : Time) :
    (event.withTime time).data = event.data := rfl

@[simp] theorem withTime_time (event : Event α) (time : Time) :
    (event.withTime time).time = time := rfl

end Event

end TimedTrace
