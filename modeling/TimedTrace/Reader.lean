import TimedTrace.Ring.Basic

namespace TimedTrace

inductive ReaderError where
  /-- There is no event at hand. -/
  | unavailable
  /-- Unread events were overwritten. -/
  | overflow
  | read (cause : RingError)
  deriving DecidableEq, Repr

def ReaderError.message : ReaderError → String
  | unavailable => "no event available"
  | overflow => "unread events were overwritten, synchronize the reader"
  | read cause => "trace read failed: " ++ cause.message

/-- How a reader caught up with the ring. -/
inductive Synchronization where
  /-- For the first time: it took over the ring's window. -/
  | init
  /-- Nothing unread was lost: only the upper end of its window moved. -/
  | soft
  /-- Unread events were lost: it took over the ring's window. -/
  | hard
  deriving DecidableEq, Repr

/-- Whether events may have been missed. -/
def Synchronization.isGap (status : Synchronization) : Bool := status ≠ soft

/-- A watched slot: the stamp it had, and the time of the event it held. -/
structure Probe where
  index : Nat
  stamp : Nat
  time : Time
  deriving DecidableEq, Repr

/-- A reader has a window of its own, which it brings up to date when it is told to; the ring does
not notice what it consumes. As soon as it was synchronized once it watches a slot, that of the next
unread event, or of the last one consumed when nothing is left: a ring is overwritten in order, so
nothing unread is lost while that slot still holds what it held. -/
structure Reader where
  window : Window
  probe : Option Probe
  deriving DecidableEq, Repr

namespace Reader

variable {α : Type}

/-- A reader that was never synchronized. -/
def fresh : Reader := ⟨⟨0, 0⟩, none⟩

/-- The time of the watched event. -/
def time (reader : Reader) : Time :=
  match reader.probe with
  | some probe => probe.time
  | none => .zero

def isEmpty (reader : Reader) : Bool := reader.window.bottom = reader.window.top

/-- The number of unread events. -/
def length (reader : Reader) (ring : Ring α) : Nat :=
  ring.distance reader.window.bottom reader.window.top

/-- A look at a slot. One that was never written counts as holding an event of time zero. -/
def watch (ring : Ring α) (index : Nat) : Except ReaderError Probe :=
  match ring.look index with
  | .error cause => .error (.read cause)
  | .ok slot =>
    match slot.event with
    | some event => .ok ⟨index, slot.stamp, event.time⟩
    | none => .ok ⟨index, slot.stamp, .zero⟩

/-- Whether the watched slot no longer holds what it held. A slot that is being written does not. -/
def changed (probe : Probe) (ring : Ring α) : Bool :=
  match ring.look probe.index with
  | .error _ => true
  | .ok slot =>
    slot.stamp ≠ probe.stamp ||
      match slot.event with
      | some event => probe.time < event.time
      | none => false

/-- Whether a reader with this probe has lost unread events: its next one left the ring's window, or
the watched slot has changed. -/
def lost (reader : Reader) (probe : Probe) (ring : Ring α) : Bool :=
  !ring.within ring.window reader.window.bottom || changed probe ring

/-- Whether the reader has to be synchronized before it can consume. -/
def gap (reader : Reader) (ring : Ring α) : Bool :=
  match reader.probe with
  | some probe => reader.lost probe ring
  | none => true

/-- Takes over the ring's window. -/
def adopt (reader : Reader) (ring : Ring α) (status : Synchronization) :
    Except ReaderError Synchronization × Reader :=
  let window := ring.window
  let index := if window.bottom = window.top then ring.prev window.bottom else window.bottom
  match watch ring index with
  | .error cause => (.error cause, reader)
  | .ok probe => (.ok status, ⟨window, some probe⟩)

/-- Brings the window up to date with the ring. -/
def synchronize (reader : Reader) (ring : Ring α) : Except ReaderError Synchronization × Reader :=
  match reader.probe with
  | none => reader.adopt ring .init
  | some probe =>
    if reader.lost probe ring then reader.adopt ring .hard
    else
      let bottom := reader.window.bottom
      let top := ring.window.top
      if probe.index ≠ bottom ∧ top ≠ bottom then
        match watch ring bottom with
        | .error cause => (.error cause, reader)
        | .ok next => (.ok .soft, ⟨⟨bottom, top⟩, some next⟩)
      else (.ok .soft, ⟨⟨bottom, top⟩, some probe⟩)

/-- Consumes the oldest unread event. -/
def pull (reader : Reader) (ring : Ring α) : Except ReaderError (Event α) × Reader :=
  if reader.isEmpty then (.error .unavailable, reader)
  else
    match reader.probe with
    | none => (.error .overflow, reader)
    | some probe =>
      if reader.lost probe ring then (.error .overflow, reader)
      else
        match ring.look reader.window.bottom with
        | .error cause => (.error (.read cause), reader)
        | .ok ⟨_, none⟩ => (.error .overflow, reader)
        | .ok ⟨stamp, some event⟩ =>
          if stamp = probe.stamp ∧ event.time = probe.time then
            let next := ring.next reader.window.bottom
            if next = reader.window.top then
              (.ok event, ⟨⟨next, reader.window.top⟩, some probe⟩)
            else
              match watch ring next with
              | .error cause => (.error cause, reader)
              | .ok probe => (.ok event, ⟨⟨next, reader.window.top⟩, some probe⟩)
          else (.error .overflow, reader)

/-- Consumes the newest unread event. The next synchronization brings it back. -/
def pop (reader : Reader) (ring : Ring α) : Except ReaderError (Event α) × Reader :=
  if reader.isEmpty then (.error .unavailable, reader)
  else if reader.gap ring then (.error .overflow, reader)
  else
    let index := ring.prev reader.window.top
    match ring.read index with
    | .error cause => (.error (.read cause), reader)
    | .ok event => (.ok event, { reader with window.top := index })

end Reader

end TimedTrace
