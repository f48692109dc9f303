namespace TimedTrace

/-- Why no ring can be made. -/
inductive CapacityError where
  | zero
  | tooLarge (capacity greatest : Nat)
  deriving DecidableEq, Repr

def CapacityError.message : CapacityError → String
  | zero => "a trace buffer needs room for at least one event"
  | tooLarge capacity greatest =>
    s!"capacity {capacity} exceeds the largest publishable capacity {greatest}"

/-- Why an operation on a ring fails. -/
inductive RingError where
  /-- There is no event. -/
  | empty
  /-- There is no such slot. -/
  | outOfBound (index size : Nat)
  /-- The slot is marked by an append that has not filled it yet. -/
  | busy (index : Nat)
  /-- The update lost this many rounds and gave up. -/
  | contended (attempts : Nat)
  /-- The update can never get through, and its patience has no end. -/
  | stuck
  deriving DecidableEq, Repr

def RingError.message : RingError → String
  | empty => "the trace buffer holds no events"
  | outOfBound index size => s!"index {index} is out of bounds for a ring of {size} slots"
  | busy index => s!"slot {index} did not settle: it is still being written"
  | contended attempts => s!"state update abandoned after {attempts} contended attempts"
  | stuck => "state update can never complete"

end TimedTrace
