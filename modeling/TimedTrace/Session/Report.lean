import TimedTrace.Monitor
import TimedTrace.Writer

namespace TimedTrace

inductive Failure where
  | ring (cause : RingError)
  | reader (cause : ReaderError)
  | monitor (cause : MonitorError)
  deriving DecidableEq, Repr

def Failure.message : Failure → String
  | ring cause => cause.message
  | reader cause => cause.message
  | monitor cause => cause.message

/-- The settings and the state of a ring. -/
structure RingSummary where
  capacity : Nat
  length : Nat
  isEmpty : Bool
  epoch : Time
  patience : Patience
  writers : Nat
  deriving DecidableEq, Repr

inductive Answer (α : Type) where
  /-- Nothing to tell. -/
  | nothing
  /-- It worked, and there is nothing else to tell. -/
  | done
  /-- There is nobody of that number. -/
  | absent
  | failed (failure : Failure)
  | status (status : Admission)
  | event (event : Event α)
  | time (time : Time)
  | number (number : Nat)
  | flag (flag : Bool)
  | verdict (verdict : Verdict)
  | measure (measure : Measure)
  | synced (status : Synchronization)
  | span (window : Window) (oldest newest : Option Time)
  | summary (summary : RingSummary)
  | text (text : String)
  deriving Repr

structure ReaderView where
  window : Window
  time : Time
  length : Nat
  isEmpty : Bool
  gap : Bool
  deriving DecidableEq, Repr

structure CursorView where
  position : Nat
  length : Nat
  consumed : Nat
  reader : ReaderView
  deriving DecidableEq, Repr

structure MonitorView where
  verdict : Verdict
  origin : Time
  running : Bool
  schedule : Schedule
  cursor : CursorView
  deriving DecidableEq, Repr

/-- The one a step was addressed to, as the step left it. -/
inductive View (α : Type) where
  | nobody
  | writer (last : Option (Event α))
  /-- A writer for one event, and how many writers were attached with it. -/
  | passingWriter (last : Option (Event α)) (writers : Nat)
  | reader (view : ReaderView)
  | cursor (view : CursorView)
  | monitor (view : MonitorView)
  deriving Repr

/-- What a step reports: the window that it leaves, its answer, the one it was addressed to, and the
reports of the steps that others took meanwhile. -/
inductive Report (α : Type) where
  | mk (window : Window) (answer : Answer α) (view : View α) (meanwhile : List (Report α))

variable {α β : Type}

def Ring.summary (ring : Ring α) : RingSummary :=
  ⟨ring.capacity, ring.length, ring.isEmpty, ring.epoch, ring.patience, ring.writers⟩

def Reader.view (reader : Reader) (ring : Ring α) : ReaderView :=
  ⟨reader.window, reader.time, reader.length ring, reader.isEmpty, reader.gap ring⟩

def Cursor.view (cursor : Cursor) (ring : Ring α) : CursorView :=
  ⟨cursor.position, cursor.length ring, cursor.consumed ring, cursor.reader.view ring⟩

def Monitor.view (monitor : Monitor α) (ring : Ring α) : MonitorView :=
  ⟨monitor.verdict, monitor.origin, monitor.running, monitor.schedule, monitor.cursor.view ring⟩

namespace Answer

/-- The answer to something that may fail on the ring. -/
def ofRing (answer : β → Answer α) : Except RingError β → Answer α
  | .ok value => answer value
  | .error cause => .failed (.ring cause)

/-- The answer to something that may fail on a reader. -/
def ofReader (answer : β → Answer α) : Except ReaderError β → Answer α
  | .ok value => answer value
  | .error cause => .failed (.reader cause)

end Answer

end TimedTrace
