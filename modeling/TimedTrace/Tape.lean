import TimedTrace.Reader

namespace TimedTrace

/-- What the window of a reader shows, oldest cell first. A cell may be unreadable. -/
structure Tape (α : Type) where
  cells : Array (Except RingError (Event α))

/-- Something that moves the head of a tape: from a position to an answer and a position. Nothing is
consumed by it. -/
abbrev Scan (β : Type) := Nat → β × Nat

/-- Answers without moving the head. -/
def Scan.answer {β : Type} (answer : β) : Scan β := fun head => (answer, head)

/-- Moves the head as the scan does and changes its answer. -/
def Scan.map {β γ : Type} (f : β → γ) (scan : Scan β) : Scan γ := fun head => (scan head).map f id

namespace Tape

variable {α β : Type}

/-- The number of cells. -/
def size (tape : Tape α) : Nat := tape.cells.size

/-- The tape of events that can all be read. -/
def ofEvents (events : List (Event α)) : Tape α := ⟨(events.map .ok).toArray⟩

/-- The event at a position. -/
def read (tape : Tape α) (head : Nat) : Except ReaderError (Event α) :=
  match tape.cells[head]? with
  | none => .error .unavailable
  | some (.error cause) => .error (.read cause)
  | some (.ok event) => .ok event

/-- The event after a position. -/
def readNext (tape : Tape α) (head : Nat) : Except ReaderError (Event α) := tape.read (head + 1)

/-- The event before a position. -/
def readPrevious (tape : Tape α) : Nat → Except ReaderError (Event α)
  | 0 => .error .unavailable
  | head + 1 => tape.read head

/-- One cell on; not beyond the newest. -/
def increment (tape : Tape α) : Scan (Except ReaderError Unit) := fun head =>
  if head + 1 < tape.size then (.ok (), head + 1) else (.error .unavailable, head)

/-- One cell back; not beyond the oldest. -/
def decrement : Scan (Except ReaderError Unit)
  | 0 => (.error .unavailable, 0)
  | head + 1 => (.ok (), head)

/-- Back from `head` to the first event met that is not after `time`. -/
def rewind (tape : Tape α) (time : Time) (head : Nat) : Except ReaderError Unit × Nat :=
  match tape.read head with
  | .error cause => (.error cause, head)
  | .ok event =>
    if event.time ≤ time then (.ok (), head)
    else
      match head with
      | 0 => (.error .unavailable, 0)
      | head + 1 => tape.rewind time head

/-- On from `head` as long as the next event is not after `time`. -/
def advance (tape : Tape α) (time : Time) (head : Nat) : Except ReaderError Unit × Nat :=
  if head + 1 < tape.size then
    match tape.readNext head with
    | .error cause => (.error cause, head)
    | .ok event => if event.time ≤ time then tape.advance time (head + 1) else (.ok (), head)
  else (.ok (), head)
termination_by tape.size - head

/-- Seeks the last event not after `time` from where the head stands: back while the event there is
later, and then on while the next one is not. -/
def seek (tape : Tape α) (time : Time) : Scan (Except ReaderError Unit) := fun head =>
  match tape.rewind time head with
  | (.error cause, head) => (.error cause, head)
  | (.ok _, head) => tape.advance time head

/-- Runs something that moves the head, and then puts the head back to where it stood. -/
def restoring (tape : Tape α) (scan : Scan β) : Scan β := fun head =>
  ((scan head).1, if head < tape.size then head else 0)

theorem size_ofEvents (events : List (Event α)) : (ofEvents events).size = events.length := by
  simp [ofEvents, size]

theorem read_ofEvents (events : List (Event α)) (head : Nat) :
    (ofEvents events).read head =
      match events[head]? with
      | some event => .ok event
      | none => .error .unavailable := by
  simp only [read, ofEvents, List.getElem?_toArray, List.getElem?_map]
  cases events[head]? <;> rfl

theorem readNext_eq_unavailable {tape : Tape α} {head : Nat} (last : tape.size ≤ head + 1) :
    tape.readNext head = .error .unavailable := by
  have beyond : tape.cells[head + 1]? = none := by
    simpa [size] using last
  simp [readNext, read, beyond]

/-- Whoever restores never moves the head of a tape that has cells. -/
theorem restoring_position {tape : Tape α} {head : Nat} (onTape : head < tape.size)
    (scan : Scan β) : (tape.restoring scan head).2 = head := by
  simp [restoring, onTape]

/-- The answer does not depend on whether the head is put back once or twice. -/
@[simp] theorem restoring_restoring (tape : Tape α) (scan : Scan β) :
    tape.restoring (tape.restoring scan) = tape.restoring scan := rfl

end Tape

end TimedTrace
