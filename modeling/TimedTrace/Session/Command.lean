import TimedTrace.Monitor
import TimedTrace.Writer

namespace TimedTrace

inductive RingCommand (α : Type) where
  | push (event : Event α)
  | pull
  | pop
  | read (index : Nat)
  | write (event : Event α) (index : Nat)
  | span
  | align (reading : Time)
  | describe

inductive ClockCommand where
  | set (time : Time)
  | advance (amount : Time)

inductive WriterCommand (α : Type) where
  /-- Append a value at the time it is now. -/
  | push (data : α)
  /-- Append an event after giving it the time it is now. -/
  | pushEvent (event : Event α)
  /-- Append an event as it is. -/
  | pushStamped (event : Event α)
  | now
  | detach

inductive ReaderCommand where
  | synchronize
  | pull
  | pop
  | look

inductive CursorCommand (α : Type) where
  | synchronize
  | pull
  | pop
  | gap
  | increment
  | decrement
  | moveTo (position : Nat)
  | seek (time : Time)
  | read
  | readNext
  | readPrevious
  | reset
  | look
  | evaluate (formula : Formula α) (time : Time)
  | evaluateTerm (term : Term α) (time : Time)

inductive MonitorCommand where
  | run
  | setOrigin (origin : Time)
  | setPeriod (period : Time)
  | enable
  | disable
  | formula

/-- Writers, readers, cursors and monitors are numbered in the order they were made. -/
inductive Command (α : Type) where
  | ring (command : RingCommand α)
  | clock (command : ClockCommand)
  | attach (clock : Clock)
  /-- A writer that is attached for one event. -/
  | pushOnce (event : Event α)
  | writer (number : Nat) (command : WriterCommand α)
  | newReader
  | reader (number : Nat) (command : ReaderCommand)
  | newCursor
  | cursor (number : Nat) (command : CursorCommand α)
  | newMonitor (plan : MonitorPlan α)
  | monitor (number : Nat) (command : MonitorCommand)

mutual

/-- A command, and what happens one after the other whenever it is about to swap the window of the
ring. -/
inductive Step (α : Type) where
  | mk (command : Command α) (script : List (Move α))

/-- What happens when a step is about to swap. -/
inductive Move (α : Type) where
  /-- The swap fails of itself. -/
  | lose
  /-- The swap is tried. -/
  | pass
  /-- Others take whole steps before the swap is tried. -/
  | others (steps : List (Step α))

end

end TimedTrace
