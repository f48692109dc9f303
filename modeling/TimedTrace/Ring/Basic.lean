import TimedTrace.Event
import TimedTrace.Register
import TimedTrace.Ring.Error

namespace TimedTrace

/-- A place for an event. Its stamp goes up by two with every write, and is odd while an append has
marked the slot and not yet filled it. -/
structure Slot (α : Type) where
  /-- This counts without end. What is kept of it is a word, `Slot.word`. -/
  stamp : Nat
  event : Option (Event α)
  deriving DecidableEq, Repr, Inhabited

/-- The word that a stamp is kept in. It comes round again after `2 ^ 63` writes of the slot. -/
def Slot.word {α : Type} (slot : Slot α) : UInt64 := UInt64.ofNat slot.stamp

/-- An even stamp: the payload can be trusted. -/
def Slot.settled {α : Type} (slot : Slot α) : Bool := slot.stamp % 2 = 0

/-- How many rounds an update may lose before it gives up. -/
inductive Patience where
  | endless
  | rounds (limit : Nat)
  deriving DecidableEq, Repr

namespace Patience

/-- The patience of a ring that nobody has chosen another one for. -/
def standard : Patience := rounds 10000

/-- Whether an update that has lost so many rounds gives up. -/
def exhausted (patience : Patience) (lost : Nat) : Bool :=
  match patience with
  | endless => false
  | rounds limit => limit ≤ lost

/-- How an update ends that has lost so many rounds and is bound to lose all that follow. -/
def hopeless (patience : Patience) (lost : Nat) : RingError :=
  match patience with
  | endless => .stuck
  | rounds limit => .contended (max lost limit)

end Patience

/-- What became of an appended event. -/
inductive Admission where
  | stored
  /-- The ring was full and its oldest event was dropped. -/
  | displaced
  /-- More than one writer is attached, so the order of events is not assured. -/
  | unordered
  deriving DecidableEq, Repr

/-- A ring of events with room for `capacity` of them. It has one slot more, so that the slot at the
top is always free and equal indices can only mean that the window is empty. -/
structure Ring (α : Type) where
  capacity : Nat
  capacity_pos : 0 < capacity
  slots : Vector (Slot α) (capacity + 1)
  register : Register
  /-- The number of writers attached. -/
  writers : Nat
  /-- The reading that the clock had when the trace began. -/
  epoch : Time
  patience : Patience

namespace Ring

variable {α : Type}

/-- An empty ring, if its kind of register can publish every index. -/
def create (kind : RegisterKind) (capacity : Nat) (epoch : Time) (patience : Patience) :
    Except CapacityError (Ring α) :=
  if room : 0 < capacity then
    if capacity < kind.maxIndex then
      .ok
        { capacity
          capacity_pos := room
          slots := Vector.replicate (capacity + 1) ⟨0, none⟩
          register := .holding kind ⟨0, 0⟩
          writers := 0
          epoch
          patience }
    else .error (.tooLarge capacity (kind.maxIndex - 1))
  else .error .zero

/-- The number of slots. -/
def size (ring : Ring α) : Nat := ring.capacity + 1

/-- The slot after a slot. -/
def next (ring : Ring α) (index : Nat) : Nat := if index + 1 = ring.size then 0 else index + 1

/-- The slot before a slot. -/
def prev (ring : Ring α) (index : Nat) : Nat := if index = 0 then ring.size - 1 else index - 1

/-- The steps that lead forward from one slot to another. -/
def distance (ring : Ring α) (start finish : Nat) : Nat := (finish + ring.size - start) % ring.size

/-- The slot so many steps forward from a slot. -/
def forward (ring : Ring α) (start steps : Nat) : Nat := (start + steps) % ring.size

/-- Whether the slot is one of the window, the free slot at its top included. -/
def within (ring : Ring α) (window : Window) (index : Nat) : Bool :=
  ring.distance window.bottom index ≤ ring.distance window.bottom window.top

def snapshot (ring : Ring α) : Snapshot := ring.register.load

def window (ring : Ring α) : Window := ring.snapshot.window

/-- The number of events in the window. -/
def length (ring : Ring α) : Nat := ring.distance ring.window.bottom ring.window.top

def isEmpty (ring : Ring α) : Bool := ring.length = 0

/-- A reading of the clock as an offset from the epoch; an earlier one is the epoch itself. -/
def align (ring : Ring α) (reading : Time) : Time := reading.sub ring.epoch

/-- The slot at an index. There is none beyond the last. -/
def slot? (ring : Ring α) (index : Nat) : Option (Slot α) := ring.slots[index]?

/-- The ring with one slot replaced. -/
def setSlot (ring : Ring α) (index : Nat) (slot : Slot α) : Ring α :=
  { ring with slots := ring.slots.setIfInBounds index slot }

/-- The ring with the stamp of one slot replaced. -/
def setStamp (ring : Ring α) (index stamp : Nat) : Ring α :=
  match ring.slot? index with
  | some slot => ring.setSlot index { slot with stamp }
  | none => ring

/-- A settled slot. -/
def look (ring : Ring α) (index : Nat) : Except RingError (Slot α) :=
  match ring.slot? index with
  | none => .error (.outOfBound index ring.size)
  | some slot => if slot.settled then .ok slot else .error (.busy index)

/-- The event in a slot, be it in the window or not: a slot keeps its last event. -/
def read (ring : Ring α) (index : Nat) : Except RingError (Event α) :=
  match ring.look index with
  | .error cause => .error cause
  | .ok ⟨_, some event⟩ => .ok event
  | .ok ⟨_, none⟩ => .error .empty

/-- Puts an event into a slot and leaves the window alone. The slot is settled afterwards, even if
an append had marked it. -/
def write (ring : Ring α) (event : Event α) (index : Nat) : Except RingError Unit × Ring α :=
  match ring.slot? index with
  | none => (.error (.outOfBound index ring.size), ring)
  | some slot => (.ok (), ring.setSlot index ⟨(slot.stamp + 2) / 2 * 2, some event⟩)

/-- The window and the times of its oldest and newest events, if it has any. -/
def span (ring : Ring α) : Except RingError (Window × Option Time × Option Time) :=
  let window := ring.window
  if window.bottom = window.top then .ok (window, none, none)
  else
    match ring.read window.bottom, ring.read (ring.prev window.top) with
    | .ok oldest, .ok newest => .ok (window, some oldest.time, some newest.time)
    | .error cause, _ => .error cause
    | _, .error cause => .error cause

def attachWriter (ring : Ring α) : Ring α := { ring with writers := ring.writers + 1 }

def detachWriter (ring : Ring α) : Ring α := { ring with writers := ring.writers - 1 }

theorem size_pos (ring : Ring α) : 0 < ring.size := Nat.succ_pos _

theorem next_lt (ring : Ring α) {index : Nat} (bound : index < ring.size) :
    ring.next index < ring.size := by
  unfold next
  split <;> omega

theorem prev_lt (ring : Ring α) {index : Nat} (bound : index < ring.size) :
    ring.prev index < ring.size := by
  have := ring.size_pos
  unfold prev
  split <;> omega

@[simp] theorem prev_next (ring : Ring α) (index : Nat) : ring.prev (ring.next index) = index := by
  unfold next prev
  split
  · simp; omega
  · simp

theorem next_prev (ring : Ring α) {index : Nat} (bound : index < ring.size) :
    ring.next (ring.prev index) = index := by
  unfold next prev
  split
  · subst index
    have := ring.size_pos
    rw [if_pos (by omega)]
  · rw [if_neg (by omega)]
    omega

theorem distance_lt (ring : Ring α) (start finish : Nat) :
    ring.distance start finish < ring.size := Nat.mod_lt _ ring.size_pos

@[simp] theorem distance_self (ring : Ring α) (index : Nat) : ring.distance index index = 0 := by
  simp [distance]

theorem forward_lt (ring : Ring α) (start steps : Nat) : ring.forward start steps < ring.size :=
  Nat.mod_lt _ ring.size_pos

/-- Walking the distance between two slots leads from the one to the other. -/
theorem forward_distance (ring : Ring α) {start finish : Nat} (start_lt : start < ring.size)
    (finish_lt : finish < ring.size) :
    ring.forward start (ring.distance start finish) = finish := by
  unfold forward distance
  rw [Nat.add_mod_mod, show start + (finish + ring.size - start) = finish + ring.size by omega,
    Nat.add_mod_right, Nat.mod_eq_of_lt finish_lt]

/-- A walk of fewer steps than there are slots ends that far away. -/
theorem distance_forward (ring : Ring α) {start steps : Nat} (start_lt : start < ring.size)
    (steps_lt : steps < ring.size) : ring.distance start (ring.forward start steps) = steps := by
  unfold forward distance
  by_cases wraps : start + steps < ring.size
  · rw [Nat.mod_eq_of_lt wraps, show start + steps + ring.size - start = steps + ring.size by omega,
      Nat.add_mod_right, Nat.mod_eq_of_lt steps_lt]
  · have once : start + steps = (start + steps - ring.size) + ring.size := by omega
    have rest : start + steps - ring.size < ring.size := by omega
    rw [once, Nat.add_mod_right, Nat.mod_eq_of_lt rest, ← once, Nat.add_sub_cancel_left,
      Nat.mod_eq_of_lt steps_lt]

theorem slot?_eq_none_iff {ring : Ring α} {index : Nat} :
    ring.slot? index = none ↔ ring.size ≤ index := by
  simp [slot?, size]

/-- Reading back after a replacement: the slot itself if there is one, every other as it was. -/
theorem slot?_setSlot (ring : Ring α) (index other : Nat) (slot : Slot α) :
    (ring.setSlot index slot).slot? other =
      if index = other then (ring.slot? other).map fun _ => slot else ring.slot? other := by
  show (ring.slots.setIfInBounds index slot)[other]? = _
  rw [Vector.getElem?_setIfInBounds]
  by_cases same : index = other
  · subst other
    by_cases bound : index < ring.capacity + 1 <;> simp [slot?, bound]
  · simp [slot?, same]

theorem slot?_setStamp (ring : Ring α) (index other stamp : Nat) :
    (ring.setStamp index stamp).slot? other =
      if index = other then (ring.slot? other).map fun slot => { slot with stamp }
      else ring.slot? other := by
  unfold setStamp
  split
  · rename_i slot atIndex
    rw [slot?_setSlot]
    split
    · subst other; simp [atIndex]
    · rfl
  · rename_i absent
    split
    · subst other; simp [absent]
    · rfl

@[simp] theorem window_setSlot (ring : Ring α) (index : Nat) (slot : Slot α) :
    (ring.setSlot index slot).window = ring.window := rfl

@[simp] theorem size_setSlot (ring : Ring α) (index : Nat) (slot : Slot α) :
    (ring.setSlot index slot).size = ring.size := rfl

@[simp] theorem window_setStamp (ring : Ring α) (index stamp : Nat) :
    (ring.setStamp index stamp).window = ring.window := by
  unfold setStamp
  split <;> rfl

@[simp] theorem size_setStamp (ring : Ring α) (index stamp : Nat) :
    (ring.setStamp index stamp).size = ring.size := by
  unfold setStamp
  split <;> rfl

theorem look_eq_ok_iff {ring : Ring α} {index : Nat} {slot : Slot α} :
    ring.look index = .ok slot ↔ ring.slot? index = some slot ∧ slot.settled = true := by
  unfold look
  cases atIndex : ring.slot? index with
  | none => simp
  | some other =>
    dsimp only
    split
    · rename_i settled
      simp only [Except.ok.injEq, Option.some.injEq]
      exact ⟨fun same => ⟨same, same ▸ settled⟩, fun same => same.1⟩
    · rename_i unsettled
      simp only [reduceCtorEq, Option.some.injEq, false_iff, not_and]
      exact fun same => same ▸ unsettled

theorem read_eq_ok_iff {ring : Ring α} {index : Nat} {event : Event α} :
    ring.read index = .ok event ↔
      ∃ slot, ring.slot? index = some slot ∧ slot.settled = true ∧ slot.event = some event := by
  unfold read
  constructor
  · intro found
    split at found
    · cases found
    · rename_i atIndex
      cases found
      exact ⟨_, (look_eq_ok_iff.1 atIndex).1, (look_eq_ok_iff.1 atIndex).2, rfl⟩
    · cases found
  · rintro ⟨slot, atIndex, settled, holds⟩
    rw [look_eq_ok_iff.2 ⟨atIndex, settled⟩]
    cases slot
    simp_all

end Ring

end TimedTrace
