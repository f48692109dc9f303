import TimedTrace.Evaluation

namespace TimedTrace

inductive MonitorError where
  | missingFormula
  | zeroPeriod
  /-- The first synchronization failed. -/
  | reader (cause : ReaderError)
  deriving DecidableEq, Repr

def MonitorError.message : MonitorError → String
  | missingFormula => "a formula is required to build a monitor"
  | zeroPeriod => "monitor period must be non-zero"
  | reader cause => "initial synchronization failed: " ++ cause.message

/-- The class of scheduling asked for. -/
inductive SchedulingClass where
  | other
  | fifo
  | roundRobin
  deriving DecidableEq, Repr

/-- How often a monitor is to be run, and with what urgency. -/
structure Schedule where
  period : Time
  kind : SchedulingClass
  priority : Nat
  deriving DecidableEq, Repr

/-- Every tenth of a second, with nothing special asked for. -/
def Schedule.standard : Schedule := ⟨.ofNanos 100000000, .other, 0⟩

/-- What a monitor is made from. -/
structure MonitorPlan (α : Type) where
  formula : Option (Formula α)
  origin : Time
  schedule : Schedule
  enabled : Bool

/-- Nothing chosen yet: no formula, evaluation at time zero, the standard schedule, enabled. -/
def MonitorPlan.blank {α : Type} : MonitorPlan α := ⟨none, .zero, .standard, true⟩

/-- A formula that is evaluated at one time, the origin, whenever the monitor is run. Its cursor is
kept in between, so that each run only catches up with what was appended since the last. -/
structure Monitor (α : Type) where
  cursor : Cursor
  formula : Formula α
  origin : Time
  schedule : Schedule
  running : Bool
  /-- The verdict of the last run that reached the origin. -/
  verdict : Verdict

namespace Monitor

variable {α : Type}

/-- A monitor with a cursor of its own, synchronized with the ring. -/
def build (plan : MonitorPlan α) (ring : Ring α) : Except MonitorError (Monitor α) :=
  match plan.formula with
  | none => .error .missingFormula
  | some formula =>
    if plan.schedule.period = .zero then .error .zeroPeriod
    else
      match Cursor.fresh.synchronize ring with
      | (.error cause, _) => .error (.reader cause)
      | (.ok _, cursor) =>
        .ok { cursor, formula, origin := plan.origin, schedule := plan.schedule,
              running := plan.enabled, verdict := .unknown }

/-- Moves the origin. A verdict for another origin is dropped. -/
def setOrigin (monitor : Monitor α) (origin : Time) : Monitor α :=
  { monitor with
    origin
    verdict := if origin = monitor.origin then monitor.verdict else .unknown }

def setPeriod (monitor : Monitor α) (period : Time) : Monitor α :=
  { monitor with schedule := { monitor.schedule with period } }

def enable (monitor : Monitor α) : Monitor α := { monitor with running := true }

def disable (monitor : Monitor α) : Monitor α := { monitor with running := false }

/-- Catches up with the ring and evaluates. The verdict stays what it was if the monitor is
disabled, cannot catch up, or finds no event at or before its origin. -/
def run [DecidableEq α] (monitor : Monitor α) (ring : Ring α) : Monitor α :=
  if monitor.running then
    match monitor.cursor.synchronize ring with
    | (.error _, cursor) => { monitor with cursor }
    | (.ok _, cursor) =>
      match cursor.seek ring monitor.origin with
      | (.error _, cursor) => { monitor with cursor }
      | (.ok _, cursor) =>
        let (verdict, cursor) := cursor.evaluate ring monitor.formula monitor.origin
        { monitor with cursor, verdict }
  else monitor

end Monitor

end TimedTrace
