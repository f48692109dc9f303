import TimedTrace.Ring.Basic

namespace TimedTrace

/-- A slot marked by an append: the stamp it had, and the event it will hold. -/
structure Mark (α : Type) where
  index : Nat
  stamp : Nat
  event : Event α
  deriving DecidableEq, Repr

/-- A round that is ready to publish. -/
structure Round (α β : Type) where
  /-- The publication that the round started from. -/
  token : UInt64
  next : Window
  mark : Option (Mark α)
  /-- The answer of the update, given how many writers are attached when the round succeeds. -/
  answer : Nat → β

/-- How a round begins. -/
inductive Opening (α β : Type) where
  /-- The update fails, whatever comes. -/
  | refused (cause : RingError)
  /-- The slot to fill is marked already, so the round is lost before it can publish. -/
  | blocked
  | ready (round : Round α β) (ring : Ring α)

/-- What happens when a round is about to publish. -/
structure Turn (α τ : Type) where
  /-- What others do to the ring, and to a state `τ` of their own, before the swap is tried. -/
  act : Ring α × τ → Ring α × τ
  /-- Whether the swap fails, no matter what others have done. -/
  fails : Bool

variable {α β τ : Type}

namespace Round

/-- The ring after a lost round: a marked slot has its old stamp again. -/
def withdraw (round : Round α β) (ring : Ring α) : Ring α :=
  match round.mark with
  | none => ring
  | some mark => ring.setStamp mark.index mark.stamp

/-- The ring after a successful round: a marked slot holds its event and is settled. -/
def complete (round : Round α β) (ring : Ring α) : Ring α :=
  match round.mark with
  | none => ring
  | some mark => ring.setSlot mark.index ⟨mark.stamp + 2, some mark.event⟩

/-- Tries the swap. There is an answer exactly if it succeeds. -/
def publish (round : Round α β) (ring : Ring α) : Option β × Ring α :=
  match ring.register.swap round.token round.next with
  | (true, register) => (some (round.answer ring.writers), round.complete { ring with register })
  | (false, register) => (none, round.withdraw { ring with register })

/-- Tries the swap, or fails without trying it. -/
def attempt (round : Round α β) (fails : Bool) (ring : Ring α) : Option β × Ring α :=
  if fails then (none, round.withdraw ring) else round.publish ring

end Round

namespace Ring

/-- The opening of an append. A full ring gives up its oldest event with the same swap. -/
def append (event : Event α) (ring : Ring α) : Opening α Admission :=
  let window := ring.window
  match ring.slot? window.top with
  | none => .blocked
  | some slot =>
    if slot.settled then
      let full := ring.next window.top = window.bottom
      let round : Round α Admission :=
        { token := ring.snapshot.token
          next := ⟨if full then ring.next window.bottom else window.bottom, ring.next window.top⟩
          mark := some ⟨window.top, slot.stamp, event⟩
          answer := fun writers =>
            if 1 < writers then .unordered else if full then .displaced else .stored }
      .ready round (ring.setStamp window.top (slot.stamp + 1))
    else .blocked

/-- The opening of a take: the event at `index` is read before the window moves on to `next`. -/
def take (ring : Ring α) (index : Nat) (next : Window) : Opening α (Event α) :=
  if ring.window.bottom = ring.window.top then .refused .empty
  else
    match ring.read index with
    | .error cause => .refused cause
    | .ok event => .ready ⟨ring.snapshot.token, next, none, fun _ => event⟩ ring

def takeOldest (ring : Ring α) : Opening α (Event α) :=
  ring.take ring.window.bottom ⟨ring.next ring.window.bottom, ring.window.top⟩

def takeNewest (ring : Ring α) : Opening α (Event α) :=
  ring.take (ring.prev ring.window.top) ⟨ring.window.bottom, ring.prev ring.window.top⟩

/-- Runs an update that has lost `lost` rounds so far, with one turn of others for each round to
come. A round loads the window and prepares the next one, which is published if nothing was
published in between; otherwise the update starts over, unless its patience is at an end. A round
that is blocked, or that fails with nobody left to interfere, leaves everything as it was, so all
rounds after it are lost too. -/
def contend (opening : Ring α → Opening α β) :
    List (Turn α τ) → Nat → Ring α × τ → Except RingError β × (Ring α × τ)
  | turns, lost, (ring, rest) =>
    match opening ring with
    | .refused cause => (.error cause, ring, rest)
    | .blocked => (.error (ring.patience.hopeless (lost + 1)), ring, rest)
    | .ready round marked =>
      match turns with
      | [] =>
        match round.publish marked with
        | (some answer, ring) => (.ok answer, ring, rest)
        | (none, ring) => (.error (ring.patience.hopeless (lost + 1)), ring, rest)
      | turn :: turns =>
        let (ring, rest) := turn.act (marked, rest)
        match round.attempt turn.fails ring with
        | (some answer, ring) => (.ok answer, ring, rest)
        | (none, ring) =>
          if ring.patience.exhausted (lost + 1) then (.error (.contended (lost + 1)), ring, rest)
          else contend opening turns (lost + 1) (ring, rest)

/-- An update with nobody else about. -/
def uncontended (ring : Ring α) (opening : Ring α → Opening α β) : Except RingError β × Ring α :=
  let (result, ring, _) := contend opening ([] : List (Turn α Unit)) 0 (ring, ())
  (result, ring)

/-- Appends an event at the top. -/
def push (ring : Ring α) (event : Event α) : Except RingError Admission × Ring α :=
  ring.uncontended (append event)

/-- Removes the oldest event. -/
def pull (ring : Ring α) : Except RingError (Event α) × Ring α := ring.uncontended takeOldest

/-- Removes the newest event. -/
def pop (ring : Ring α) : Except RingError (Event α) × Ring α := ring.uncontended takeNewest

/-- Appends events one after the other, whether or not there is room for all. -/
def pushAll (ring : Ring α) (events : List (Event α)) : Ring α :=
  events.foldl (fun ring event => (ring.push event).2) ring

end Ring

end TimedTrace
