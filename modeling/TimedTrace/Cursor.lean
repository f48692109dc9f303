import TimedTrace.Tape

namespace TimedTrace

/-- A reader and the slot that its head stands on. From there its window can be read back and forth
without being consumed. -/
structure Cursor where
  reader : Reader
  position : Nat
  deriving DecidableEq, Repr

namespace Cursor

variable {α β : Type}

def fresh : Cursor := ⟨.fresh, 0⟩

/-- The events before the position. -/
def consumed (cursor : Cursor) (ring : Ring α) : Nat :=
  ring.distance cursor.reader.window.bottom cursor.position

/-- The events from the position on. -/
def length (cursor : Cursor) (ring : Ring α) : Nat :=
  cursor.reader.length ring - cursor.consumed ring

/-- Whether a head may stand on the slot: it shows an event of the window, or it is where the window
begins, be there an event or not. -/
def Valid (reader : Reader) (ring : Ring α) (position : Nat) : Prop :=
  position < ring.size ∧
    (position = reader.window.bottom ∨
      ring.distance reader.window.bottom position < reader.length ring)

instance (reader : Reader) (ring : Ring α) (position : Nat) :
    Decidable (Valid reader ring position) :=
  inferInstanceAs (Decidable (_ ∧ _))

/-- What the window shows, from its oldest event on. -/
def tape (reader : Reader) (ring : Ring α) : Tape α where
  cells := (Array.range (reader.length ring)).map fun steps =>
    ring.read (ring.forward reader.window.bottom steps)

/-- Moves the head on the tape of the window. -/
def onTape (cursor : Cursor) (ring : Ring α) (scan : Tape α → Scan β) : β × Cursor :=
  let (answer, head) := scan (tape cursor.reader ring) (cursor.consumed ring)
  (answer, { cursor with position := ring.forward cursor.reader.window.bottom head })

/-- The cursor with its reader changed. It keeps its position if the new window has it, and goes to
the oldest event otherwise. -/
def follow (cursor : Cursor) (ring : Ring α) (reader : Reader) : Cursor :=
  if Valid reader ring cursor.position then { cursor with reader }
  else ⟨reader, reader.window.bottom⟩

/-- Lets the reader act, and follows it if it succeeds. -/
def through (cursor : Cursor) (ring : Ring α) (act : Except ReaderError β × Reader) :
    Except ReaderError β × Cursor :=
  match act with
  | (.ok answer, reader) => (.ok answer, cursor.follow ring reader)
  | (.error cause, reader) => (.error cause, { cursor with reader })

def synchronize (cursor : Cursor) (ring : Ring α) : Except ReaderError Synchronization × Cursor :=
  cursor.through ring (cursor.reader.synchronize ring)

def pull (cursor : Cursor) (ring : Ring α) : Except ReaderError (Event α) × Cursor :=
  cursor.through ring (cursor.reader.pull ring)

def pop (cursor : Cursor) (ring : Ring α) : Except ReaderError (Event α) × Cursor :=
  cursor.through ring (cursor.reader.pop ring)

def gap (cursor : Cursor) (ring : Ring α) : Bool := cursor.reader.gap ring

/-- Goes to a slot of the window. -/
def moveTo (cursor : Cursor) (ring : Ring α) (position : Nat) : Except ReaderError Unit × Cursor :=
  if Valid cursor.reader ring position then (.ok (), { cursor with position })
  else (.error .unavailable, cursor)

/-- Goes to the oldest event. -/
def reset (cursor : Cursor) : Cursor := { cursor with position := cursor.reader.window.bottom }

def increment (cursor : Cursor) (ring : Ring α) : Except ReaderError Unit × Cursor :=
  cursor.onTape ring Tape.increment

def decrement (cursor : Cursor) (ring : Ring α) : Except ReaderError Unit × Cursor :=
  cursor.onTape ring fun _ => Tape.decrement

/-- Seeks the last event not after `time` from the position. -/
def seek (cursor : Cursor) (ring : Ring α) (time : Time) : Except ReaderError Unit × Cursor :=
  cursor.onTape ring fun tape => tape.seek time

/-- The event at the position. -/
def read (cursor : Cursor) (ring : Ring α) : Except ReaderError (Event α) :=
  (tape cursor.reader ring).read (cursor.consumed ring)

def readNext (cursor : Cursor) (ring : Ring α) : Except ReaderError (Event α) :=
  (tape cursor.reader ring).readNext (cursor.consumed ring)

def readPrevious (cursor : Cursor) (ring : Ring α) : Except ReaderError (Event α) :=
  (tape cursor.reader ring).readPrevious (cursor.consumed ring)

theorem size_tape (reader : Reader) (ring : Ring α) :
    (tape reader ring).size = reader.length ring := by
  simp [tape, Tape.size]

theorem valid_bottom {reader : Reader} {ring : Ring α}
    (bound : reader.window.bottom < ring.size) : Valid reader ring reader.window.bottom :=
  ⟨bound, Or.inl rfl⟩

end Cursor

end TimedTrace
